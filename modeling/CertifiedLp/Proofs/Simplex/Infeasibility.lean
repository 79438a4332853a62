import Mathlib
import CertifiedLp.Proofs.Simplex.Program

/-!
# Infeasibility of a solve

Multipliers of the rows refute a linear program if the sides that support them add up to more than
the sum of the rows can reach within the bounds of the columns (`Refutes`). The first phase ends with
such multipliers where nothing repairs a violation: every other variable of the row is stuck at the
end where its part of the row is smallest, so even the smallest value of the row is too large.

Crossing bounds or sides are no exception here, because the argument needs no point within all ends.
-/

namespace CertifiedLp

namespace Tableau

variable {m n : Nat} {p : StandardForm m n} {t : Tableau m n} {v : Violation m} {j : Fin (n + m)}

theorem get_multipliers (t : Tableau m n) (v : Violation m) (i : Fin m) :
    (t.multipliers v).get i = t.weight v (Fin.natAdd n i) := by
  rw [multipliers, get_ofFn, weight]
  cases v.side <;> simp [Side.sign]

namespace Solves

/-- The row of a violation combines the equations with its multipliers. -/
theorem weight_column (h : t.Solves p) (v : Violation m) (j : Fin n) :
    t.weight v (Fin.castAdd m j) = -∑ i, (t.multipliers v).get i * p.coefficient i j := by
  simp only [get_multipliers, weight, h.coefficient_column, mul_neg, Finset.mul_sum, mul_assoc]

end Solves

/-- Where nothing repairs a violation, the row is positive even at the ends where all of its parts
are smallest. -/
theorem Valid.exists_supports_of_violation (h : t.Valid p) (hv : t.firstViolation? p = some v)
    (hnone : t.firstNonbasic? (t.repairs p v) = none) :
    ∃ e : Fin (n + m) → Rat, (∀ j, (p.boundsOf j).Supports (e j) (t.weight v j)) ∧
      0 < ∑ j, t.weight v j * e j := by
  have hends (j : Fin (n + m)) : ∃ e, (p.boundsOf j).Supports e (t.weight v j) ∧
      t.weight v j * (values p t).get j ≤ t.weight v j * e ∧
      (t.basicVar v.row = j → t.weight v j * (values p t).get j < t.weight v j * e) := by
    by_cases hrow : t.basicVar v.row = j
    · subst hrow
      obtain ⟨e, he, hbeyond⟩ := Bounds.violated?_eq_some (violated?_of_firstViolation? hv)
      obtain ⟨hsupports, hlt⟩ := hbeyond.supports_sign he
      rw [h.weight_basicVar, if_pos rfl]
      exact ⟨e, hsupports, hlt.le, fun _ => hlt⟩
    by_cases hj : t.statusOf j = .basic
    · obtain ⟨k, rfl⟩ := (h.basic_iff j).mp hj
      rw [h.weight_basicVar, if_neg fun hk => hrow (congrArg t.basicVar hk)]
      exact ⟨0, Bounds.supports_zero _ _, by simp, fun hk => absurd hk hrow⟩
    · obtain ⟨e, hsupports, hle⟩ :=
        (stuck_of_repairs_eq_false (firstNonbasic?_eq_none hnone hj)).exists_supports hj (h.fits j)
      rw [h.get_values_of_ne_basic hj]
      exact ⟨e, hsupports, hle, fun hk => absurd hk hrow⟩
  choose e hsupports hle hlt using hends
  refine ⟨e, hsupports, ?_⟩
  calc 0 = ∑ j, t.weight v j * (values p t).get j := (sum_weight_mul h.holds_values v).symm
    _ < ∑ j, t.weight v j * e j :=
        Finset.sum_lt_sum (fun j _ => hle j) ⟨_, Finset.mem_univ _, hlt _ rfl⟩

end Tableau

namespace Simplex

variable {s : Simplex} {y side : Fin s.nrRows → Rat} {bound : Fin s.nrColumns → Rat}

/-- Multipliers of the rows, with sides that support them and bounds at which the sum of the rows is
largest, and the sides add up to more than that. -/
structure Refutes (s : Simplex) (y side : Fin s.nrRows → Rat) (bound : Fin s.nrColumns → Rat) :
    Prop where
  /-- A positive multiplier takes the left-hand side, a negative one the right-hand side. -/
  sides : ∀ i, (s.rowAt i).sides.Supports (side i) (y i)
  /-- A column that the sum contains positively takes its upper bound, and a column that it contains
  negatively takes its lower bound. -/
  bounds : ∀ j, (s.columnAt j).bounds.Supports (bound j) (-s.combinedAt y j)
  /-- The sum of the sides is out of reach. -/
  gap : ∑ j, s.combinedAt y j * bound j < ∑ i, y i * side i

namespace Refutes

/-- Within the bounds of the columns the sum of the rows is largest at the chosen bounds. -/
theorem sum_le (h : s.Refutes y side bound) {x : Fin s.nrColumns → Rat}
    (hx : ∀ j, (s.columnAt j).bounds.Contains (x j)) :
    ∑ j, s.combinedAt y j * x j ≤ ∑ j, s.combinedAt y j * bound j := by
  refine Finset.sum_le_sum fun j _ => ?_
  have hle := (h.bounds j).mul_le (hx j)
  rwa [neg_mul, neg_mul, neg_le_neg_iff] at hle

/-- It is the maximum if there are values within the bounds. -/
theorem isGreatest (h : s.Refutes y side bound)
    (hordered : ∀ j, (s.columnAt j).bounds.Ordered) :
    IsGreatest {total | ∃ x : Fin s.nrColumns → Rat,
        (∀ j, (s.columnAt j).bounds.Contains (x j)) ∧ ∑ j, s.combinedAt y j * x j = total}
      (∑ j, s.combinedAt y j * bound j) := by
  constructor
  · choose x hx hbound using fun j => (h.bounds j).exists_mul_eq (hordered j)
    refine ⟨x, hx, Finset.sum_congr rfl fun j _ => ?_⟩
    have heq := hbound j
    rwa [neg_mul, neg_mul, neg_inj] at heq
  · rintro _ ⟨x, hx, rfl⟩
    exact h.sum_le hx

/-- There is no feasible point. -/
theorem not_isFeasible (h : s.Refutes y side bound) (x : Fin s.nrColumns → Rat) :
    ¬s.IsFeasible x := by
  intro hx
  have hsides : ∑ i, y i * side i ≤ ∑ i, y i * s.activityAt x i :=
    Finset.sum_le_sum fun i _ => (h.sides i).mul_le (hx.sides i)
  rw [sum_mul_activityAt] at hsides
  exact absurd (hsides.trans (h.sum_le hx.bounds)) (not_le.mpr h.gap)

end Refutes

/-- The multipliers of a violation that nothing repairs refute the linear program. -/
theorem refutes_multipliers {v : Tableau.Violation s.nrRows}
    (hv : s.lastTableau.firstViolation? s.standardForm = some v)
    (hnone : s.lastTableau.firstNonbasic? (s.lastTableau.repairs s.standardForm v) = none) :
    ∃ side bound, s.Refutes (s.lastTableau.multipliers v).get side bound := by
  obtain ⟨e, hsupports, hpos⟩ := s.valid_lastTableau.exists_supports_of_violation hv hnone
  have hcolumn (j : Fin s.nrColumns) : s.lastTableau.weight v (Fin.castAdd s.nrRows j) =
      -s.combinedAt (s.lastTableau.multipliers v).get j := by
    rw [s.valid_lastTableau.weight_column]
    simp [combinedAt]
  refine ⟨fun i => e (Fin.natAdd _ i), fun j => e (Fin.castAdd _ j), ?_, ?_, ?_⟩
  · intro i
    rw [Tableau.get_multipliers, ← boundsOf_row]
    exact hsupports _
  · intro j
    rw [← hcolumn, ← boundsOf_column]
    exact hsupports _
  · rw [Fin.sum_univ_add] at hpos
    simp only [hcolumn, ← Tableau.get_multipliers, neg_mul, Finset.sum_neg_distrib] at hpos
    linarith

/-- A solve that ends with infeasibility reports multipliers that refute the linear program: the sum
of the sides that they select exceeds the maximum of the sum of the rows over the bounds of the
columns, so that there is no feasible point. -/
theorem solve_infeasible (s : Simplex) (h : Solver.reports s.solve .infeasible = true) :
    ∃ y side bound,
      s.solve.farkas = .ok (toValues (Array.ofFn y)) ∧
      s.Refutes y side bound ∧
      ((∀ j, (s.columnAt j).bounds.Ordered) →
        IsGreatest {total | ∃ x : Fin s.nrColumns → Rat,
            (∀ j, (s.columnAt j).bounds.Contains (x j)) ∧ ∑ j, s.combinedAt y j * x j = total}
          (∑ j, s.combinedAt y j * bound j)) ∧
      ¬∃ x, s.IsFeasible x := by
  obtain ⟨y, hy⟩ := (s.reports_solve .infeasible).mp h
  have hends := s.ends_lastTableau
  rw [hy] at hends
  obtain ⟨v, hv, hnone, rfl⟩ := hends
  obtain ⟨side, bound, hrefutes⟩ := refutes_multipliers hv hnone
  refine ⟨_, side, bound, farkas_solve hy, hrefutes, hrefutes.isGreatest, ?_⟩
  rintro ⟨x, hx⟩
  exact hrefutes.not_isFeasible x hx

/-- Two columns of at most one cannot add up to three. With the row at its left-hand side, the first
column is above its upper bound, and the second one, which has no lower bound, cannot help. -/
theorem solve_infeasible_sum :
    let s : Simplex := { empty with
      columns := #[⟨1, ⟨some 0, some 1⟩, .basic⟩, ⟨0, ⟨none, some 1⟩, .upper⟩]
      rows := #[⟨#[1, 1], ⟨some 3, none⟩, .lower⟩] }
    Solver.reports s.solve .infeasible = true ∧
      ∃ y side bound, s.solve.farkas = .ok (toValues (Array.ofFn y)) ∧ s.Refutes y side bound ∧
        ¬∃ x, s.IsFeasible x := by
  intro s
  have hreports : Solver.reports s.solve .infeasible = true := by decide +kernel
  obtain ⟨y, side, bound, hfarkas, hrefutes, -, hnone⟩ := solve_infeasible s hreports
  exact ⟨hreports, y, side, bound, hfarkas, hrefutes, hnone⟩

end Simplex

end CertifiedLp
