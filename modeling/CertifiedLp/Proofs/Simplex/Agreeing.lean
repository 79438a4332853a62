import Mathlib
import CertifiedLp.Proofs.Simplex.Termination

/-!
# Tableaux with the same statuses

The statuses say which variables are basic, and the equations solved for these variables are always
the same: two tableaux with the same statuses differ in the order of their rows only. No decision of
the simplex method depends on that order. The tableaux have the same values, directions and reduced
costs, the same variable violates its bounds first, the same variables repair the violation or
improve the objective, and the multipliers and rays read off them are the same.
-/

namespace CertifiedLp

namespace Tableau

variable {m n : Nat} {p : StandardForm m n} {t t' : Tableau m n} {z w : Vector Rat (n + m)}
variable {entering j : Fin (n + m)} {increase : Bool} {k l : Fin m} {v v' : Violation m}

/-- The values outside of the basis determine a solution of the rows. -/
theorem Solves.eq_of_holds (h : t.Solves p) (hz : t.Holds z) (hw : t.Holds w)
    (hrest : ∀ j, t.statusOf j ≠ .basic → z.get j = w.get j) : z = w := by
  refine get_ext fun j => ?_
  by_cases hj : t.statusOf j = .basic
  · obtain ⟨k, rfl⟩ := (h.basic_iff j).mp hj
    have hsame : ∑ i with t.statusOf i ≠ .basic, t.coefficient k i * z.get i =
        ∑ i with t.statusOf i ≠ .basic, t.coefficient k i * w.get i :=
      Finset.sum_congr rfl fun i hi => by rw [hrest i (Finset.mem_filter.mp hi).2]
    have hrowz := Tableau.holds_iff.mp hz k
    have hroww := Tableau.holds_iff.mp hw k
    rw [h.sum_row] at hrowz hroww
    linarith
  · exact hrest j hj

/-- Two tableaux solve the equations for the same basic variables, and every other variable is at
the same end. -/
structure Agree (p : StandardForm m n) (t t' : Tableau m n) : Prop where
  left : t.Solves p
  right : t'.Solves p
  status : t'.status = t.status

namespace Agree

theorem symm (h : Agree p t t') : Agree p t' t := ⟨h.right, h.left, h.status.symm⟩

theorem statusOf (h : Agree p t t') (j : Fin (n + m)) : t'.statusOf j = t.statusOf j :=
  congrArg (·.get j) h.status

/-- Every row has a counterpart with the same basic variable. -/
theorem exists_row (h : Agree p t t') (k : Fin m) : ∃ l, t'.basicVar l = t.basicVar k :=
  (h.right.basic_iff _).mp ((h.statusOf _).trans (h.left.statusOf_basicVar k))

theorem holds_iff (h : Agree p t t') : t'.Holds z ↔ t.Holds z :=
  (h.right.holds_iff z).trans (h.left.holds_iff z).symm

theorem values_eq (h : Agree p t t') : values p t' = values p t :=
  h.left.values_eq_of_status_eq h.right h.status

theorem direction_eq (h : Agree p t t') (hentering : t.statusOf entering ≠ .basic)
    (increase : Bool) : t'.direction entering increase = t.direction entering increase := by
  have hentering' : t'.statusOf entering ≠ .basic := h.statusOf entering ▸ hentering
  refine h.left.eq_of_holds (h.holds_iff.mp (h.right.holds_direction increase hentering'))
    (h.left.holds_direction increase hentering) fun j hj => ?_
  rw [h.right.get_direction_of_ne_basic increase (h.statusOf j ▸ hj),
    h.left.get_direction_of_ne_basic increase hj]

theorem rate_eq (h : Agree p t t') (hrow : t'.basicVar l = t.basicVar k)
    (hentering : t.statusOf entering ≠ .basic) (increase : Bool) :
    t'.rate entering increase l = t.rate entering increase k := by
  rw [← h.right.get_direction_basicVar, ← h.left.get_direction_basicVar,
    h.direction_eq hentering, hrow]

/-- Rows with the same basic variable are the same. -/
theorem coefficient_eq (h : Agree p t t') (hrow : t'.basicVar l = t.basicVar k)
    (j : Fin (n + m)) : t'.coefficient l j = t.coefficient k j := by
  by_cases hj : t.statusOf j = .basic
  · obtain ⟨i, rfl⟩ := (h.left.basic_iff j).mp hj
    obtain ⟨i', hi'⟩ := h.exists_row i
    rw [h.left.coefficient_basicVar, ← hi', h.right.coefficient_basicVar]
    refine if_congr ⟨?_, ?_⟩ rfl rfl
    · rintro rfl
      exact h.left.basicVar_injective (hrow.symm.trans hi')
    · rintro rfl
      exact h.right.basicVar_injective (hrow.trans hi'.symm)
  · have hrate := h.rate_eq hrow hj true
    simpa [rate] using hrate

/-! ## Decisions -/

theorem firstNonbasic?_eq (h : Agree p t t') {test test' : Fin (n + m) → Bool}
    (htest : ∀ j, t.statusOf j ≠ .basic → test' j = test j) :
    t'.firstNonbasic? test' = t.firstNonbasic? test := by
  rw [firstNonbasic?, firstNonbasic?]
  congr 1
  funext j
  by_cases hj : t.statusOf j = .basic
  · simp [h.statusOf, hj]
  · simp [h.statusOf, htest j hj]

/-- Where one tableau has a violation, the other one has, of the same variable and end. -/
theorem exists_firstViolation? (h : Agree p t t') (hv : t.firstViolation? p = some v) :
    ∃ v', t'.firstViolation? p = some v' ∧ t'.basicVar v'.row = t.basicVar v.row ∧
      v'.side = v.side := by
  have hviolated := violated?_of_firstViolation? hv
  obtain ⟨l, hl⟩ := h.exists_row v.row
  cases hv' : t'.firstViolation? p with
  | none =>
    have hwithin := contains_of_firstViolation?_eq_none hv' l
    rw [← Bounds.violated?_eq_none_iff, hl, h.values_eq, hviolated] at hwithin
    cases hwithin
  | some v' =>
    have hviolated' := violated?_of_firstViolation? hv'
    obtain ⟨k, hk⟩ := h.symm.exists_row v'.row
    -- Neither of the two variables comes before the other one, which would be within its bounds.
    have hrow : t'.basicVar v'.row = t.basicVar v.row := by
      rcases lt_trichotomy (t'.basicVar v'.row) (t.basicVar v.row) with hlt | heq | hgt
      · have hwithin := contains_of_lt_firstViolation? hv (hk ▸ hlt)
        rw [← Bounds.violated?_eq_none_iff, hk, ← h.values_eq, hviolated'] at hwithin
        cases hwithin
      · exact heq
      · have hwithin := contains_of_lt_firstViolation? hv' (hl ▸ hgt)
        rw [← Bounds.violated?_eq_none_iff, hl, h.values_eq, hviolated] at hwithin
        cases hwithin
    refine ⟨v', rfl, hrow, ?_⟩
    rw [hrow, h.values_eq, hviolated] at hviolated'
    exact (Option.some.inj hviolated').symm

theorem firstViolation?_eq_none (h : Agree p t t') (hv : t.firstViolation? p = none) :
    t'.firstViolation? p = none := by
  by_contra hne
  obtain ⟨v', hv'⟩ := Option.ne_none_iff_exists'.mp hne
  obtain ⟨v, hv'', -⟩ := h.symm.exists_firstViolation? hv'
  exact nomatch hv.symm.trans hv''

theorem repairs_eq (h : Agree p t t') (hrow : t'.basicVar v'.row = t.basicVar v.row)
    (hside : v'.side = v.side) : t'.repairs p v' = t.repairs p v := by
  funext j
  simp only [repairs, hside, h.coefficient_eq hrow, canIncrease, canDecrease, h.statusOf]

theorem multipliers_eq (h : Agree p t t') (hrow : t'.basicVar v'.row = t.basicVar v.row)
    (hside : v'.side = v.side) : t'.multipliers v' = t.multipliers v := by
  simp only [multipliers, hside, h.coefficient_eq hrow]

theorem reducedCosts_eq (h : Agree p t t') : reducedCosts p t' = reducedCosts p t := by
  refine get_ext fun j => ?_
  by_cases hj : t.statusOf j = .basic
  · obtain ⟨k, rfl⟩ := (h.left.basic_iff j).mp hj
    obtain ⟨l, hl⟩ := h.exists_row k
    rw [h.left.reducedCost_basicVar, ← hl, h.right.reducedCost_basicVar]
  · -- A reduced cost is what a unit of its variable costs along its direction.
    have hcost := h.left.objective_direction true hj
    have hcost' := h.right.objective_direction true (h.statusOf j ▸ hj)
    rw [h.direction_eq hj, hcost] at hcost'
    simpa [pace] using hcost'.symm

theorem improving?_eq (h : Agree p t t') : t'.improving? p = t.improving? p := by
  refine h.firstNonbasic?_eq fun j _ => ?_
  simp only [h.reducedCosts_eq, canIncrease, canDecrease, h.statusOf]

theorem improvingDirection_eq (h : Agree p t t') (j : Fin (n + m)) :
    t'.improvingDirection p j = t.improvingDirection p j := by
  rw [improvingDirection, improvingDirection, h.reducedCosts_eq]

/-- What blocks a move in one tableau blocks it in the other one. -/
theorem exists_blocks (h : Agree p t t') (hentering : t.statusOf entering ≠ .basic) {b : Block m n}
    (hb : Blocks p t' entering increase b) : ∃ b', Blocks p t entering increase b' := by
  rcases hb with ⟨width, hwidth, -⟩ | ⟨l, hl⟩
  · exact ⟨_, .inl ⟨width, hwidth, rfl⟩⟩
  · obtain ⟨side, bound, hbound, -, hahead⟩ := rowBlock?_eq_some.mp hl
    obtain ⟨k, hk⟩ := h.symm.exists_row l
    rw [h.rate_eq hk.symm hentering] at hahead
    exact ⟨_, blocks_row side (hk ▸ hbound) hahead⟩

theorem firstBlock?_eq_none (h : Agree p t t') (hentering : t.statusOf entering ≠ .basic)
    (hb : t.firstBlock? p entering increase = none) :
    t'.firstBlock? p entering increase = none := by
  by_contra hne
  obtain ⟨b, hb'⟩ := Option.ne_none_iff_exists'.mp hne
  obtain ⟨b', hblocks⟩ := h.exists_blocks hentering (blocks_of_firstBlock? hb').1
  exact not_blocks_of_firstBlock?_eq_none hb b' hblocks

theorem ray_eq (h : Agree p t t') (hentering : t.statusOf entering ≠ .basic) (increase : Bool) :
    t'.ray entering increase = t.ray entering increase :=
  get_ext fun j => by rw [get_ray, get_ray, h.direction_eq hentering]

end Agree

end Tableau

end CertifiedLp
