import Mathlib
import CertifiedLp.Proofs.Simplex.Equations

/-!
# The point at a tableau

Outside of the basis every variable sits at an end of its bounds, and the rows determine the rest.
`Tableau.Valid` adds to the equations that these ends exist; a tableau to start from has this
property whatever basis it is made from, and so has every tableau that a pivot to an existing end
leads to. The values of a valid tableau are then the only point that solves the equations with these
ends (`Solves.eq_values`).

A variable outside of the basis that may not move in the direction in which a product with it gets
smaller has reached the end at which that product is smallest (`Bounds.Stuck.exists_supports`).
Both certificates rest on this fact: that of optimality for the reduced costs, and that of
infeasibility for a row of the tableau.
-/

namespace CertifiedLp

namespace Bounds

variable {b : Bounds} {s : BasisStatus} {w e x : Rat}

/-- The ends do not cross. -/
def Ordered (b : Bounds) : Prop := ∀ lower ∈ b.lower, ∀ upper ∈ b.upper, lower ≤ upper

instance (b : Bounds) : Decidable b.Ordered :=
  inferInstanceAs (Decidable (∀ lower ∈ b.lower, ∀ upper ∈ b.upper, lower ≤ upper))

/-- A status names an end that exists, or there is none. -/
def Fits (b : Bounds) : BasisStatus → Prop
  | .lower => b.lower.isSome = true
  | .upper => b.upper.isSome = true
  | .zero => b.lower = none ∧ b.upper = none
  | .basic => True

theorem fits_startStatus (b : Bounds) : b.Fits b.startStatus := by
  rw [startStatus]
  split
  · next hlower => exact hlower
  · next hlower =>
    split
    · next hupper => exact hupper
    · next hupper => exact ⟨by simpa using hlower, by simpa using hupper⟩

theorem fits_feasibleStatus (b : Bounds) (preferred : BasisStatus) :
    b.Fits (b.feasibleStatus preferred) := by
  have h := b.fits_startStatus
  cases preferred
  case basic => exact h
  all_goals
    rw [feasibleStatus]
    split
    · next hends => simpa [Fits] using hends
    · exact h

theorem fits_status_iff {side : Side} : b.Fits side.status ↔ (b.get side).isSome = true := by
  cases side <;> rfl

theorem statusValue_status {side : Side} (h : b.get side = some e) :
    b.statusValue side.status = e := by
  cases side <;> simp_all [statusValue, get, Side.status]

/-- An end that exists is within bounds that do not cross. -/
theorem Ordered.contains_statusValue (hb : b.Ordered) (hs : s ≠ .basic) (h : b.Fits s) :
    b.Contains (b.statusValue s) := by
  cases s with
  | lower =>
    obtain ⟨l, hl⟩ := Option.isSome_iff_exists.mp h
    constructor
    · intro l' hl'
      simp_all [statusValue]
    · intro u hu
      simpa [statusValue, hl] using hb l hl u hu
  | basic => exact absurd rfl hs
  | upper =>
    obtain ⟨u, hu⟩ := Option.isSome_iff_exists.mp h
    constructor
    · intro l hl
      simpa [statusValue, hu] using hb l hl u hu
    · intro u' hu'
      simp_all [statusValue]
  | zero => exact ⟨by simp [h.1], by simp [h.2]⟩

/-! ## Supporting ends -/

/-- An end supports a multiplier if the product is smallest there: the lower end supports positive
multipliers, the upper end negative ones, and zero needs no support. -/
def Supports (b : Bounds) (e w : Rat) : Prop :=
  (0 < w → b.lower = some e) ∧ (w < 0 → b.upper = some e)

/-- Any number supports zero. -/
theorem supports_zero (b : Bounds) (e : Rat) : b.Supports e 0 :=
  ⟨fun h => absurd h (lt_irrefl 0), fun h => absurd h (lt_irrefl 0)⟩

theorem supports_lower (hw : 0 < w) (he : b.lower = some e) : b.Supports e w :=
  ⟨fun _ => he, fun hneg => absurd hw hneg.not_gt⟩

theorem supports_upper (hw : w < 0) (he : b.upper = some e) : b.Supports e w :=
  ⟨fun hpos => absurd hw hpos.not_gt, fun _ => he⟩

/-- No value within the bounds has a smaller product. -/
theorem Supports.mul_le (h : b.Supports e w) (hx : b.Contains x) : w * e ≤ w * x := by
  rcases lt_trichotomy w 0 with hw | rfl | hw
  · exact mul_le_mul_of_nonpos_left (hx.2 e (h.2 hw)) hw.le
  · simp
  · exact mul_le_mul_of_nonneg_left (hx.1 e (h.1 hw)) hw.le

/-- The smallest product is attained within bounds that do not cross. -/
theorem Supports.exists_mul_eq (h : b.Supports e w) (hb : b.Ordered) :
    ∃ x, b.Contains x ∧ w * x = w * e := by
  rcases lt_trichotomy w 0 with hw | rfl | hw
  · refine ⟨e, ?_, rfl⟩
    have hupper := h.2 hw
    simpa [statusValue, hupper] using
      hb.contains_statusValue (s := .upper) (by simp) (by simp [Fits, hupper])
  · exact ⟨_, hb.contains_statusValue b.startStatus_ne_basic b.fits_startStatus, by simp⟩
  · refine ⟨e, ?_, rfl⟩
    have hlower := h.1 hw
    simpa [statusValue, hlower] using
      hb.contains_statusValue (s := .lower) (by simp) (by simp [Fits, hlower])

/-- Without room between them, the upper end is not above the lower one. -/
theorem ends_of_hasRoom_eq_false (h : b.hasRoom = false) :
    ∃ l u, b.lower = some l ∧ b.upper = some u ∧ u ≤ l := by
  rw [hasRoom] at h
  split at h
  · next l u hl hu => exact ⟨l, u, hl, hu, by simpa using h⟩
  · cases h

/-- A variable is stuck if it may not move where its product with a multiplier gets smaller. -/
def Stuck (b : Bounds) (s : BasisStatus) (w : Rat) : Prop :=
  (w < 0 → b.canIncrease s = false) ∧ (0 < w → b.canDecrease s = false)

theorem stuck_of_test_eq_false
    (h : (decide (w < 0) && b.canIncrease s || decide (0 < w) && b.canDecrease s) = false) :
    b.Stuck s w := by
  rw [Bool.or_eq_false_iff, Bool.and_eq_false_imp, Bool.and_eq_false_imp] at h
  exact ⟨fun hneg => h.1 (decide_eq_true hneg), fun hpos => h.2 (decide_eq_true hpos)⟩

/-- A variable that is stuck has the end that supports the multiplier, and is not on the inner side
of it. -/
theorem Stuck.exists_supports (hstuck : b.Stuck s w) (hs : s ≠ .basic) (h : b.Fits s) :
    ∃ e, b.Supports e w ∧ w * b.statusValue s ≤ w * e := by
  rcases lt_trichotomy w 0 with hw | rfl | hw
  · have hincrease := hstuck.1 hw
    cases s with
    | lower =>
      obtain ⟨l, u, hl, hu, hle⟩ := ends_of_hasRoom_eq_false hincrease
      refine ⟨u, supports_upper hw hu, ?_⟩
      simpa [statusValue, hl] using mul_le_mul_of_nonpos_left hle hw.le
    | basic => exact absurd rfl hs
    | upper =>
      obtain ⟨u, hu⟩ := Option.isSome_iff_exists.mp h
      exact ⟨u, supports_upper hw hu, by simp [statusValue, hu]⟩
    | zero => cases hincrease
  · exact ⟨0, b.supports_zero 0, by simp⟩
  · have hdecrease := hstuck.2 hw
    cases s with
    | lower =>
      obtain ⟨l, hl⟩ := Option.isSome_iff_exists.mp h
      exact ⟨l, supports_lower hw hl, by simp [statusValue, hl]⟩
    | basic => exact absurd rfl hs
    | upper =>
      obtain ⟨l, u, hl, hu, hle⟩ := ends_of_hasRoom_eq_false hdecrease
      refine ⟨l, supports_lower hw hl, ?_⟩
      simpa [statusValue, hu] using mul_le_mul_of_nonneg_left hle hw.le
    | zero => cases hdecrease

/-- If the ends do not cross, such a variable is at the supporting end. -/
theorem Stuck.supports (hstuck : b.Stuck s w) (hs : s ≠ .basic) (h : b.Fits s) (hb : b.Ordered) :
    b.Supports (b.statusValue s) w := by
  obtain ⟨e, hsupports, hle⟩ := hstuck.exists_supports hs h
  have heq : w * e = w * b.statusValue s :=
    le_antisymm (hsupports.mul_le (hb.contains_statusValue hs h)) hle
  constructor
  · intro hw
    rw [hsupports.1 hw, mul_left_cancel₀ hw.ne' heq]
  · intro hw
    rw [hsupports.2 hw, mul_left_cancel₀ hw.ne heq]

end Bounds

theorem Side.status_ne_basic (side : Side) : side.status ≠ .basic := by cases side <;> simp [status]

namespace Tableau

variable {m n : Nat} {p : StandardForm m n} {t : Tableau m n} {z : Vector Rat (n + m)}

/-- The rows are the equations, and every variable outside of the basis has the end that it is said
to be at. -/
structure Valid (p : StandardForm m n) (t : Tableau m n) : Prop extends t.Solves p where
  /-- The status of each variable fits its bounds. -/
  fits : ∀ j, (p.boundsOf j).Fits (t.statusOf j)

theorem valid_initial (p : StandardForm m n) : (initial p).Valid p where
  toSolves := solves_initial p
  fits j := by
    rw [statusOf_initial]
    split
    · exact Bounds.fits_startStatus _
    · trivial

theorem valid_crash (h : t.Solves p) (target : Vector BasisStatus (n + m)) :
    (t.crash p target).Valid p where
  toSolves := h.crash target
  fits j := by
    rw [crash, statusOf, get_ofFn]
    split
    · trivial
    · exact Bounds.fits_feasibleStatus _ _

/-- A pivot after which the leaving variable is at an end that exists. -/
theorem Valid.pivot (h : t.Valid p) {k : Fin m} {entering : Fin (n + m)} {side : Side}
    (hcoefficient : t.coefficient k entering ≠ 0) (hentering : t.statusOf entering ≠ .basic)
    (hside : ((p.boundsOf (t.basicVar k)).get side).isSome = true) :
    (t.pivot k entering side.status).Valid p where
  toSolves := h.toSolves.pivot hcoefficient hentering side.status_ne_basic
  fits j := by
    rw [statusOf_pivot]
    split
    · next hj => exact Bounds.fits_status_iff.mpr (hj ▸ hside)
    · split
      · trivial
      · exact h.fits j

/-! ## Values -/

theorem get_nonbasicValues (p : StandardForm m n) (t : Tableau m n) (j : Fin (n + m)) :
    (nonbasicValues p t).get j = (p.boundsOf j).statusValue (t.statusOf j) := by
  rw [nonbasicValues, get_ofFn]

namespace Solves

theorem get_values_of_ne_basic (h : t.Solves p) {j : Fin (n + m)} (hj : t.statusOf j ≠ .basic) :
    (values p t).get j = (p.boundsOf j).statusValue (t.statusOf j) := by
  rw [values, get_foldl_replaceAt_of_ne _ _ _ fun k _ => h.ne_basicVar hj k, get_nonbasicValues]

theorem get_values_basicVar (h : t.Solves p) (k : Fin m) : (values p t).get (t.basicVar k) =
    -∑ j with t.statusOf j ≠ .basic, t.coefficient k j * (values p t).get j := by
  have hbasic : (nonbasicValues p t).get (t.basicVar k) = 0 := by
    rw [get_nonbasicValues, h.statusOf_basicVar]
    rfl
  have hrest : ∑ j with t.statusOf j ≠ .basic, t.coefficient k j * (values p t).get j =
      ∑ j with t.statusOf j ≠ .basic, t.coefficient k j * (nonbasicValues p t).get j := by
    refine Finset.sum_congr rfl fun j hj => ?_
    rw [h.get_values_of_ne_basic (Finset.mem_filter.mp hj).2, get_nonbasicValues]
  rw [hrest, values, get_foldl_replaceAt h.basicVar_injective, sumOver_eq_sum, h.sum_row, hbasic,
    zero_add]

theorem holds_values (h : t.Solves p) : t.Holds (values p t) := by
  rw [Tableau.holds_iff]
  intro k
  rw [h.sum_row, h.get_values_basicVar, neg_add_cancel]

/-- The values outside of the basis determine the point. -/
theorem eq_values (h : t.Solves p) (hz : t.Holds z)
    (hrest : ∀ j, t.statusOf j ≠ .basic → z.get j = (p.boundsOf j).statusValue (t.statusOf j)) :
    z = values p t := by
  have houtside (j) (hj : t.statusOf j ≠ .basic) : z.get j = (values p t).get j := by
    rw [hrest j hj, h.get_values_of_ne_basic hj]
  refine get_ext fun j => ?_
  by_cases hj : t.statusOf j = .basic
  · obtain ⟨k, rfl⟩ := (h.basic_iff j).mp hj
    have hrow := Tableau.holds_iff.mp hz k
    rw [h.sum_row] at hrow
    rw [h.get_values_basicVar, eq_neg_of_add_eq_zero_left hrow]
    congr 1
    refine Finset.sum_congr rfl fun i hi => ?_
    rw [houtside i (Finset.mem_filter.mp hi).2]
  · exact houtside j hj

/-! ## Reduced costs -/

theorem reducedCost_basicVar (h : t.Solves p) (k : Fin m) :
    (reducedCosts p t).get (t.basicVar k) = 0 := by
  rw [reducedCosts, get_ofFn, sumOver_eq_sum]
  simp [h.coefficient_basicVar]

end Solves

theorem get_reducedCosts (p : StandardForm m n) (t : Tableau m n) (j : Fin (n + m)) :
    (reducedCosts p t).get j = p.costOf j - ∑ k, p.costOf (t.basicVar k) * t.coefficient k j := by
  rw [reducedCosts, get_ofFn, sumOver_eq_sum]

/-- On the solutions of the rows, the reduced costs give the same objective as the costs. -/
theorem objective_eq (hz : t.Holds z) :
    p.objective z = ∑ j, (reducedCosts p t).get j * z.get j := by
  have hrows : ∑ j, (∑ k, p.costOf (t.basicVar k) * t.coefficient k j) * z.get j = 0 :=
    calc ∑ j, (∑ k, p.costOf (t.basicVar k) * t.coefficient k j) * z.get j
        = ∑ k, p.costOf (t.basicVar k) * ∑ j, t.coefficient k j * z.get j := by
          simp only [Finset.sum_mul, Finset.mul_sum]
          rw [Finset.sum_comm]
          simp only [mul_assoc]
      _ = 0 := by simp [holds_iff.mp hz]
  simp only [StandardForm.objective_eq_sum, get_reducedCosts, sub_mul, Finset.sum_sub_distrib,
    hrows, sub_zero]

/-- The reduced costs of the slack variables are the dual values: those of the columns are what
they leave of the costs. -/
theorem Solves.reducedCost_column (h : t.Solves p) (hslack : ∀ i, p.costOf (Fin.natAdd n i) = 0)
    (j : Fin n) : (reducedCosts p t).get (Fin.castAdd m j) = p.costOf (Fin.castAdd m j) -
      ∑ i, (reducedCosts p t).get (Fin.natAdd n i) * p.coefficient i j := by
  simp only [get_reducedCosts, hslack, zero_sub, h.coefficient_column, mul_neg,
    Finset.sum_neg_distrib, neg_mul, sub_neg_eq_add, Finset.mul_sum, Finset.sum_mul]
  rw [Finset.sum_comm]
  simp only [mul_assoc]

end Tableau

end CertifiedLp
