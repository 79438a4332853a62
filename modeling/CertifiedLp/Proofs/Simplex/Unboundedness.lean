import Mathlib
import CertifiedLp.Proofs.Simplex.Program

/-!
# Unboundedness of a solve

A direction is a way to improve without end if it never leaves the bounds of the columns and the
sides of the rows and its cost is negative (`Improves`). From a feasible point it leads below every
objective value (`Improves.exists_costAt_lt`). The second phase ends with such a direction where
nothing blocks an improving variable: an end that a variable approaches would be a block.
-/

namespace CertifiedLp

namespace Bounds

variable {b : Bounds} {s : BasisStatus} {increase : Bool} {rate distance x : Rat}

/-- A rate of change that approaches no end. -/
def Recedes (b : Bounds) (rate : Rat) : Prop :=
  (b.lower.isSome = true → 0 ≤ rate) ∧ (b.upper.isSome = true → rate ≤ 0)

theorem recedes_zero (b : Bounds) : b.Recedes 0 := ⟨fun _ => le_rfl, fun _ => le_rfl⟩

/-- Such a rate never leads out of the bounds. -/
theorem Recedes.contains_add (h : b.Recedes rate) (hx : b.Contains x) (hdistance : 0 ≤ distance) :
    b.Contains (x + distance * rate) := by
  apply hx.add_mul hdistance
  · intro hrate u hu
    exact absurd (h.2 (Option.isSome_of_eq_some hu)) hrate.not_ge
  · intro hrate l hl
    exact absurd (h.1 (Option.isSome_of_eq_some hl)) hrate.not_ge

/-- A variable that may move and has no other end recedes. -/
theorem recedes_pace (h : b.Fits s) (hmove : b.canMove s increase = true)
    (hwidth : b.width? = none) : b.Recedes (pace increase) := by
  have hends (l u : Rat) (hl : b.lower = some l) : b.upper ≠ some u := by
    intro hu
    have := width?_eq_some.mpr ⟨l, u, hl, hu, rfl⟩
    rw [hwidth] at this
    cases this
  rcases cases_of_canMove h hmove with ⟨l, hl, -, rfl, -⟩ | ⟨u, hu, -, rfl, -⟩ |
    ⟨hlower, hupper, -⟩
  · refine ⟨fun _ => by simp [pace], fun hupper => ?_⟩
    obtain ⟨u, hu⟩ := Option.isSome_iff_exists.mp hupper
    exact absurd hu (hends l u hl)
  · refine ⟨fun hlower => ?_, fun _ => by simp [pace]⟩
    obtain ⟨l, hl⟩ := Option.isSome_iff_exists.mp hlower
    exact absurd hu (hends l u hl)
  · exact ⟨by simp [hlower], by simp [hupper]⟩

end Bounds

namespace Tableau

variable {m n : Nat} {p : StandardForm m n} {t : Tableau m n} {entering : Fin (n + m)}
variable {increase : Bool}

/-- Where nothing blocks a move, no variable approaches an end. -/
theorem Valid.recedes_direction (h : t.Valid p)
    (hmove : (p.boundsOf entering).canMove (t.statusOf entering) increase = true)
    (hblock : t.firstBlock? p entering increase = none) (j : Fin (n + m)) :
    (p.boundsOf j).Recedes ((t.direction entering increase).get j) := by
  have hfree := not_blocks_of_firstBlock?_eq_none hblock
  by_cases hj : t.statusOf j = .basic
  · obtain ⟨k, rfl⟩ := (h.basic_iff j).mp hj
    rw [h.get_direction_basicVar]
    constructor
    · intro hlower
      obtain ⟨l, hl⟩ := Option.isSome_iff_exists.mp hlower
      exact not_lt.mp fun hrate => hfree _ (blocks_row .lower hl hrate)
    · intro hupper
      obtain ⟨u, hu⟩ := Option.isSome_iff_exists.mp hupper
      exact not_lt.mp fun hrate => hfree _ (blocks_row .upper hu hrate)
  · rw [h.get_direction_of_ne_basic increase hj]
    by_cases hent : entering = j
    · subst hent
      rw [if_pos rfl]
      apply Bounds.recedes_pace (h.fits entering) hmove
      exact Option.eq_none_iff_forall_ne_some.mpr fun width hwidth =>
        hfree _ (.inl ⟨width, hwidth, rfl⟩)
    · rw [if_neg hent]
      exact Bounds.recedes_zero _

end Tableau

namespace Simplex

variable {s : Simplex} {x r : Fin s.nrColumns → Rat} {distance : Rat}

/-- A direction that approaches no bound and no side, and in which the objective decreases. -/
structure Improves (s : Simplex) (r : Fin s.nrColumns → Rat) : Prop where
  /-- No column with a lower bound decreases, and none with an upper bound increases. -/
  bounds : ∀ j, (s.columnAt j).bounds.Recedes (r j)
  /-- The same holds for the activities and the sides. -/
  sides : ∀ i, (s.rowAt i).sides.Recedes (s.activityAt r i)
  /-- The cost is negative. -/
  cost : s.costAt r < 0

theorem activityAt_add_mul (s : Simplex) (x r : Fin s.nrColumns → Rat) (distance : Rat)
    (i : Fin s.nrRows) :
    s.activityAt (fun j => x j + distance * r j) i =
      s.activityAt x i + distance * s.activityAt r i :=
  sum_mul_add_mul _ _ _ _

theorem costAt_add_mul (s : Simplex) (x r : Fin s.nrColumns → Rat) (distance : Rat) :
    s.costAt (fun j => x j + distance * r j) = s.costAt x + distance * s.costAt r :=
  sum_mul_add_mul _ _ _ _

namespace Improves

theorem isFeasible_add (h : s.Improves r) (hx : s.IsFeasible x) (hdistance : 0 ≤ distance) :
    s.IsFeasible fun j => x j + distance * r j where
  bounds j := (h.bounds j).contains_add (hx.bounds j) hdistance
  sides i := by
    rw [activityAt_add_mul]
    exact (h.sides i).contains_add (hx.sides i) hdistance

/-- From a feasible point the direction leads below every objective value. -/
theorem exists_costAt_lt (h : s.Improves r) (hx : s.IsFeasible x) (bound : Rat) :
    ∃ x', s.IsFeasible x' ∧ s.costAt x' < bound := by
  have hcost := h.cost
  have hdistance : 0 ≤ (|s.costAt x - bound| + 1) / -s.costAt r :=
    div_nonneg (by positivity) (by linarith)
  refine ⟨_, h.isFeasible_add hx hdistance, ?_⟩
  rw [costAt_add_mul]
  have hcancel : (|s.costAt x - bound| + 1) / -s.costAt r * s.costAt r =
      -(|s.costAt x - bound| + 1) := by
    rw [div_neg, neg_mul, div_mul_cancel₀ _ hcost.ne]
  have habs := le_abs_self (s.costAt x - bound)
  linarith

end Improves

/-- A direction of the standard form is one of the columns. -/
theorem improves_columnsOf {d : Vector Rat (s.nrColumns + s.nrRows)}
    (hbalanced : s.standardForm.Balanced d)
    (hrecedes : ∀ j, (s.standardForm.boundsOf j).Recedes (d.get j))
    (hcost : s.standardForm.objective d < 0) : s.Improves (columnsOf d) where
  bounds j := by
    rw [← boundsOf_column]
    exact hrecedes _
  sides i := by
    rw [← boundsOf_row, ← get_row_of_balanced hbalanced]
    exact hrecedes _
  cost := by
    rw [← objective_standardForm]
    exact hcost

/-- The ray of an improving variable that nothing blocks. -/
theorem improves_ray {entering : Fin (s.nrColumns + s.nrRows)}
    (himproving : s.lastTableau.improving? s.standardForm = some entering)
    (hblock : s.lastTableau.firstBlock? s.standardForm entering
      (s.lastTableau.improvingDirection s.standardForm entering) = none) :
    s.Improves (s.lastTableau.ray entering
      (s.lastTableau.improvingDirection s.standardForm entering)).get := by
  have hvalid := s.valid_lastTableau
  obtain ⟨hnonbasic, hmove, hcost⟩ := Tableau.improving?_eq_some himproving
  have himproves : s.Improves (columnsOf (s.lastTableau.direction entering
      (s.lastTableau.improvingDirection s.standardForm entering))) := by
    apply improves_columnsOf
    · exact (hvalid.holds_iff _).mp (hvalid.holds_direction _ hnonbasic)
    · exact hvalid.recedes_direction hmove hblock
    · rw [hvalid.objective_direction _ hnonbasic]
      exact hcost
  convert himproves using 1
  funext j
  exact Tableau.get_ray _ _ _ j

/-- A solve that ends with unboundedness reports a feasible point and a direction in which the
objective improves without end, so that feasible points have arbitrarily small objective values. -/
theorem solve_unbounded (s : Simplex) (hs : s.Uncrossed)
    (h : Solver.reports s.solve .unbounded = true) :
    ∃ solution x r,
      s.solve.solution = .ok solution ∧ solution.primal = toValues (Array.ofFn x) ∧
      s.IsFeasible x ∧
      s.solve.primalRay = .ok (toValues (Array.ofFn r)) ∧
      s.Improves r ∧
      ∀ bound, ∃ x', s.IsFeasible x' ∧ s.costAt x' < bound := by
  obtain ⟨r, hr⟩ := (s.reports_solve .unbounded).mp h
  have hends := s.ends_lastTableau
  rw [hr] at hends
  obtain ⟨hprimal, entering, himproving, hblock, rfl⟩ := hends
  have hfeasible : s.IsFeasible (columnsOf s.lastValues) :=
    isFeasible_columnsOf (hprimal hs.ordered).feasible
  have himproves := improves_ray himproving hblock
  exact ⟨_, _, _, s.solution_solve, rfl, hfeasible, primalRay_solve hr, himproves,
    himproves.exists_costAt_lt hfeasible⟩

/-- The first column improves the objective without end, and the free second column has to grow with
it, because the row stays at its right-hand side. -/
theorem solve_unbounded_pair :
    let s : Simplex := { empty with
      columns := #[⟨-2, ⟨some 0, none⟩, .lower⟩, ⟨1, ⟨none, none⟩, .basic⟩]
      rows := #[⟨#[1, -1], ⟨none, some 2⟩, .upper⟩] }
    s.Uncrossed ∧ Solver.reports s.solve .unbounded = true ∧
      ∃ x r, s.IsFeasible x ∧ s.solve.primalRay = .ok (toValues (Array.ofFn r)) ∧ s.Improves r ∧
        ∀ bound, ∃ x', s.IsFeasible x' ∧ s.costAt x' < bound := by
  intro s
  have hs : s.Uncrossed := by decide +kernel
  have hreports : Solver.reports s.solve .unbounded = true := by decide +kernel
  obtain ⟨-, x, r, -, -, hfeasible, hray, himproves, hbelow⟩ := solve_unbounded s hs hreports
  exact ⟨hs, hreports, x, r, hfeasible, hray, himproves, hbelow⟩

end Simplex

end CertifiedLp
