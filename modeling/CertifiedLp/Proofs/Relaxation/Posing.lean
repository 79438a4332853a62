import Mathlib
import CertifiedLp.Proofs.Certificate.Acceptance
import CertifiedLp.Proofs.Extended.Laws
import CertifiedLp.Proofs.Matrix.Orderly
import CertifiedLp.Proofs.Relaxation.Faithful
import CertifiedLp.Proofs.Simplex.Infeasibility
import CertifiedLp.Proofs.Simplex.Optimality
import CertifiedLp.Proofs.Simplex.Unboundedness

/-!
# The linear program that is posed

When the simplex solver was told everything, and both lists have every coefficient between active
lines, its linear program is the active one: column by column, row by row and coefficient by
coefficient. The same points are feasible in both, and cost the same. What the solver finds out is
therefore what a certificate needs: an optimal pair is a tight solution, and multipliers that refute
the linear program of the solver refute the active one.

Ends of `10 ^ 20` and more in magnitude are an exception, because they are no ends for the solver.
-/

namespace CertifiedLp

open Extended (finite)

/-- A sum over a list is one over its positions. -/
theorem sum_map_toList {α : Type} {xs : Array α} {n : Nat} (hn : n = xs.size) {f : α → Rat}
    {g : Fin n → Rat} (h : ∀ (j : Fin n) x, xs[j.val]? = some x → f x = g j) :
    (xs.toList.map f).sum = ∑ j, g j := by
  have hmap : xs.toList.map f = List.ofFn g := by
    refine List.ext_getElem (by simp [hn]) fun j hj hj' => ?_
    have hlt : j < xs.size := by simpa using hj
    rw [List.getElem_map, List.getElem_ofFn]
    exact h ⟨j, hn ▸ hlt⟩ _ (by simp)
  rw [hmap, List.sum_ofFn]

namespace Simplex

variable {s : Simplex} {interval : Interval} {q y : Rat}

/-! ## Ends -/

/-- No end of an interval is finite but counts as infinite. -/
def Takes (interval : Interval) : Prop :=
  ∀ side, (interval.get side).isFinite = true → (finiteEnd? (interval.get side)).isSome = true

theorem Takes.finiteEnd?_eq (h : Takes interval) (side : Side) (hside : interval.get side = finite q) :
    finiteEnd? (interval.get side) = some q := by
  obtain ⟨p, hp⟩ := Option.isSome_iff_exists.mp (h side (by rw [hside]; rfl))
  have heq := eq_finite_of_finiteEnd? hp
  rw [hside, Extended.finite.injEq] at heq
  rw [hp, heq]

/-- For the solver, an interval of which it takes the ends has the same points. -/
theorem Takes.contains_iff (h : Takes interval)
    (hallows : ∀ side : Side, side.allows (interval.get side) = true) :
    (toBounds interval.lower interval.upper).Contains q ↔ interval.Contains (finite q) := by
  have hlower : (∀ lower ∈ finiteEnd? interval.lower, lower ≤ q) ↔ interval.lower ≤ finite q := by
    cases hend : interval.lower with
    | negInf => simp [finiteEnd?]
    | finite a =>
      have hsome := h.finiteEnd?_eq .lower hend
      rw [Interval.get, hend] at hsome
      simp [hsome]
    | posInf =>
      have hallowed := hallows .lower
      rw [Interval.get, hend] at hallowed
      cases hallowed
  have hupper : (∀ upper ∈ finiteEnd? interval.upper, q ≤ upper) ↔ finite q ≤ interval.upper := by
    cases hend : interval.upper with
    | negInf =>
      have hallowed := hallows .upper
      rw [Interval.get, hend] at hallowed
      cases hallowed
    | finite a =>
      have hsome := h.finiteEnd?_eq .upper hend
      rw [Interval.get, hend] at hsome
      simp [hsome]
    | posInf => simp [finiteEnd?]
  exact and_congr hlower hupper

theorem ordered_toBounds (h : interval.lower ≤ interval.upper) :
    (toBounds interval.lower interval.upper).Ordered := by
  intro lower hlower upper hupper
  rw [eq_finite_of_finiteEnd? hlower, eq_finite_of_finiteEnd? hupper] at h
  exact Extended.finite_le_finite.mp h

/-- What supports a multiplier is the end that it selects. -/
theorem selects_of_supports (h : (toBounds interval.lower interval.upper).Supports q y) :
    Relaxation.Selects y interval q := by
  intro side hside
  rw [Relaxation.selectedSide?, Extended.sign_finite] at hside
  rcases lt_trichotomy y 0 with hy | rfl | hy
  · rw [if_neg (by linarith), if_pos hy] at hside
    obtain rfl := Option.some.inj hside
    exact eq_finite_of_finiteEnd? (h.2 hy)
  · simp at hside
  · rw [if_pos hy] at hside
    obtain rfl := Option.some.inj hside
    exact eq_finite_of_finiteEnd? (h.1 hy)

/-! ## What is held at a position -/

theorem cost?_columnAt (s : Simplex) (j : Fin s.nrColumns) :
    s.cost? j = some (s.columnAt j).objective := by
  rw [cost?, Array.getElem?_eq_getElem j.isLt]
  rfl

theorem bounds?_columnAt (s : Simplex) (j : Fin s.nrColumns) :
    s.bounds? j = some (s.columnAt j).bounds := by
  rw [bounds?, Array.getElem?_eq_getElem j.isLt]
  rfl

theorem sides?_rowAt (s : Simplex) (i : Fin s.nrRows) : s.sides? i = some (s.rowAt i).sides := by
  rw [sides?, Array.getElem?_eq_getElem i.isLt]
  rfl

theorem coefficientAt_eq_of_cell? {i : Fin s.nrRows} {j : Fin s.nrColumns}
    (h : s.cell? i j = some q) : s.coefficientAt i j = q := by
  rw [cell?, Array.getElem?_eq_getElem i.isLt, Option.bind_some] at h
  change (s.rowAt i).coefficients[j.val]? = some q at h
  rw [coefficientAt, Array.getD_eq_getD_getElem?, h, Option.getD_some]

theorem getD_toValues {n : Nat} (v : Fin n → Rat) (j : Fin n) :
    (toValues (Array.ofFn v)).getD j 0 = finite (v j) := by
  simp [toValues, Array.getD_eq_getD_getElem?]

theorem isFinite_toValues {xs : Array Rat} : ∀ v ∈ toValues xs, v.isFinite = true := by
  intro v hv
  obtain ⟨q, -, rfl⟩ := Array.mem_map.mp hv
  rfl

end Simplex

/-- For an active row, the active part of a column has what both lists have. -/
theorem ConstraintMatrix.Sound.activeTotal_eq_linked {m : ConstraintMatrix} (hm : m.Sound)
    {c : ColumnRef} {r : RowRef} (hactive : m.grid.isActive (.row r) = true) :
    (m.column c).entries.activeTotal r = m.linked c r := by
  have hnodup : (((m.column c).entries.activeEntries).map (·.partner)).Nodup := by
    rw [Incidence.activeEntries_eq_take, List.map_take]
    exact (hm.columnDistinct c).sublist (List.take_sublist _ _)
  by_cases hmem : ∃ e ∈ (m.column c).entries.activeEntries, e.partner = r
  · obtain ⟨e, he, rfl⟩ := hmem
    have hone : (m.column c).entries.activeEntries.filter (·.partner = e.partner) = [e] := by
      refine List.perm_singleton.mp ((List.perm_ext_iff_of_nodup ?_ ?_).mpr fun f => ?_)
      · exact (List.Nodup.of_map _ hnodup).filter _
      · exact List.nodup_singleton e
      · rw [List.mem_filter, List.mem_singleton, decide_eq_true_iff]
        constructor
        · exact fun hf => List.inj_on_of_nodup_map hnodup hf.1 he hf.2
        · rintro rfl
          exact ⟨he, rfl⟩
    have hterm : (e.partner, e.value) ∈ (m.column c).entries.activeTerms :=
      List.mem_map_of_mem he
    rw [Incidence.activeTotal, hone, hm.linked_of_columnTerm hterm]
    simp
  · have hnone : (m.column c).entries.activeEntries.filter (·.partner = r) = [] :=
      List.filter_eq_nil_iff.mpr fun e he => by simpa using fun hr => hmem ⟨e, he, hr⟩
    rw [Incidence.activeTotal, hnone, hm.linked_of_no_columnTerm hactive fun v hv => ?_]
    · rfl
    · obtain ⟨e, he, heq⟩ := List.mem_map.mp hv
      exact hmem ⟨e, he, (Prod.mk.inj heq).1⟩

/-! ## Checks -/

theorem Side.forall_iff {p : Side → Prop} : (∀ side, p side) ↔ p .lower ∧ p .upper :=
  ⟨fun h => ⟨h _, h _⟩, fun ⟨hlower, hupper⟩ => Side.rec hlower hupper⟩

instance (p : Side → Prop) [DecidablePred p] : Decidable (∀ side, p side) :=
  decidable_of_iff _ Side.forall_iff.symm

instance (interval : Interval) : Decidable (Simplex.Takes interval) :=
  inferInstanceAs (Decidable (∀ _ : Side, _ → _))

namespace ConstraintMatrix

variable {m : ConstraintMatrix}

/-- The objective coefficient and the coefficients are rational, and the bounds exclude no number. -/
def ProperColumn (column : Column) : Prop :=
  column.spec.objective.isFinite = true ∧
    (∀ side : Side, side.allows (column.spec.bounds.get side) = true) ∧
    ∀ e ∈ column.entries.entries, e.value.isFinite = true

/-- The constant and the coefficients are rational, and the sides exclude no number. -/
def ProperRow (row : Row) : Prop :=
  row.spec.constant.isFinite = true ∧
    (∀ side : Side, side.allows (row.spec.sides.get side) = true) ∧
    ∀ e ∈ row.entries.entries, e.value.isFinite = true

instance (column : Column) : Decidable (ProperColumn column) := inferInstanceAs (Decidable (_ ∧ _))

instance (row : Row) : Decidable (ProperRow row) := inferInstanceAs (Decidable (_ ∧ _))

theorem properColumn_of_not_mem {c : ColumnRef} (hc : c ∉ m.columnRefs) : ProperColumn (m.column c) := by
  have hsize : m.columns.size ≤ c.index := not_lt.mp (mt mem_columnRefs.mpr hc)
  rw [column, Array.getD_eq_getD_getElem?, Array.getElem?_eq_none hsize, Option.getD_none]
  exact ⟨rfl, fun side => by cases side <;> rfl, fun e he => absurd he (Array.not_mem_empty e)⟩

/-- The columns that there are, and the rows that were not freed, decide about the numbers. -/
theorem proper_iff : m.Proper ↔ (∀ c ∈ m.columnRefs, ProperColumn (m.column c)) ∧
    ∀ r ∈ m.rowRefs, ∀ row ∈ m.row? r, ProperRow row := by
  constructor
  · exact fun h => ⟨fun c _ => ⟨h.objective c, h.bounds c, h.columnValue c⟩, fun r _ row hrow =>
      ⟨h.constant r row hrow, (h.sides r row · hrow), h.rowValue r row hrow⟩⟩
  rintro ⟨hcolumns, hrows⟩
  have hcolumn (c : ColumnRef) : ProperColumn (m.column c) :=
    if hc : c ∈ m.columnRefs then hcolumns c hc else properColumn_of_not_mem hc
  have hrow (r : RowRef) (row : Row) (h : m.row? r = some row) : ProperRow row :=
    hrows r (mem_rowRefs.mpr (Option.isSome_of_eq_some h)) row h
  exact {
    objective := fun c => (hcolumn c).1
    bounds := fun c => (hcolumn c).2.1
    columnValue := fun c => (hcolumn c).2.2
    constant := fun r row h => (hrow r row h).1
    sides := fun r row side h => (hrow r row h).2.1 side
    rowValue := fun r row h => (hrow r row h).2.2 }

instance : Decidable m.Proper := decidable_of_iff _ proper_iff.symm

instance (c : ColumnRef) (r : RowRef) : Decidable (m.OneSided c r) :=
  inferInstanceAs (Decidable (_ ∨ ∃ row ∈ m.row? r, _))

end ConstraintMatrix

namespace Relaxation

open Simplex (Takes)

variable {lp : Relaxation Simplex} {s : Simplex} {c : ColumnRef} {r : RowRef} {row : Row}

/-- The numbers are those of a linear program, both lists have every coefficient between active lines,
and the ends of active lines do not cross and are none that the solver does not take. -/
@[mk_iff]
structure WellPosed (lp : Relaxation Simplex) : Prop where
  proper : lp.matrix.Proper
  allLinked : lp.AllLinked
  bounds : ∀ c ∈ lp.columns, Takes (lp.matrix.column c).spec.bounds ∧
    (lp.matrix.column c).spec.bounds.lower ≤ (lp.matrix.column c).spec.bounds.upper
  sides : ∀ r ∈ lp.rows, ∀ row ∈ lp.matrix.row? r,
    Takes (solverSides row) ∧ row.spec.sides.lower ≤ row.spec.sides.upper

instance (lp : Relaxation Simplex) : Decidable lp.AllLinked :=
  inferInstanceAs (Decidable (∀ c ∈ lp.columns, ∀ r ∈ lp.rows, ¬ lp.matrix.OneSided c r))

instance (lp : Relaxation Simplex) : Decidable lp.WellPosed :=
  decidable_of_iff _ (wellPosed_iff lp).symm

/-- The linear program of a solver is the active one. -/
structure Posed (lp : Relaxation Simplex) (s : Simplex) : Prop where
  wellPosed : lp.WellPosed
  certifiable : lp.Certifiable
  sound : lp.matrix.Sound
  upToDate : UpToDate { lp with solver := s }

/-- A point of the columns at their positions in the solver. -/
def placedIn (lp : Relaxation Simplex) (s : Simplex) (x : ColumnRef → Rat) (j : Fin s.nrColumns) :
    Rat := (lp.columns[j.val]?.map x).getD 0

theorem placedIn_eq {x : ColumnRef → Rat} {j : Fin s.nrColumns}
    (hj : lp.columns[j.val]? = some c) : lp.placedIn s x j = x c := by
  rw [placedIn, hj]
  rfl

namespace Posed

variable (h : lp.Posed s) {i : Fin s.nrRows} {j : Fin s.nrColumns}

include h

/-! ## Positions -/

theorem exists_column (j : Fin s.nrColumns) : ∃ c, lp.columns[j.val]? = some c :=
  ⟨_, Array.getElem?_eq_getElem (j.isLt.trans_eq h.upToDate.nrColumns)⟩

theorem exists_row (i : Fin s.nrRows) :
    ∃ r row, lp.rows[i.val]? = some r ∧ lp.matrix.row? r = some row := by
  have hi : lp.rows[i.val]? = some _ :=
    Array.getElem?_eq_getElem (i.isLt.trans_eq h.upToDate.nrRows)
  obtain ⟨row, hrow⟩ := h.certifiable.rowsExist _ (Array.mem_of_getElem? hi)
  exact ⟨_, row, hi, hrow⟩

theorem exists_position (hc : c ∈ lp.columns) : ∃ j : Fin s.nrColumns, lp.columns[j.val]? = some c := by
  obtain ⟨j, hj⟩ := Array.mem_iff_getElem?.mp hc
  exact ⟨⟨j, (Array.getElem?_eq_some_iff.mp hj).1.trans_eq h.upToDate.nrColumns.symm⟩, hj⟩

theorem exists_rowPosition (hr : r ∈ lp.rows) : ∃ i : Fin s.nrRows, lp.rows[i.val]? = some r := by
  obtain ⟨i, hi⟩ := Array.mem_iff_getElem?.mp hr
  exact ⟨⟨i, (Array.getElem?_eq_some_iff.mp hi).1.trans_eq h.upToDate.nrRows.symm⟩, hi⟩

theorem sum_columns {f : ColumnRef → Rat} {g : Fin s.nrColumns → Rat}
    (hfg : ∀ {j : Fin s.nrColumns} {c}, lp.columns[j.val]? = some c → f c = g j) :
    (lp.columns.toList.map f).sum = ∑ j, g j :=
  sum_map_toList h.upToDate.nrColumns fun _ _ hj => hfg hj

theorem sum_rows {f : RowRef → Rat} {g : Fin s.nrRows → Rat}
    (hfg : ∀ {i : Fin s.nrRows} {r}, lp.rows[i.val]? = some r → f r = g i) :
    (lp.rows.toList.map f).sum = ∑ i, g i :=
  sum_map_toList h.upToDate.nrRows fun _ _ hi => hfg hi

/-! ## Data -/

theorem objective_eq (hj : lp.columns[j.val]? = some c) :
    (lp.matrix.column c).spec.objective.rational = (s.columnAt j).objective := by
  have hcost := h.upToDate.cost hj
  rw [Simplex.cost?_columnAt] at hcost
  rw [Simplex.eq_finite_of_finiteEnd? hcost.symm, Extended.rational_finite]

theorem bounds_eq (hj : lp.columns[j.val]? = some c) :
    (s.columnAt j).bounds = Simplex.toBounds (lp.matrix.column c).spec.bounds.lower
      (lp.matrix.column c).spec.bounds.upper := by
  have hbounds := h.upToDate.bounds hj
  rw [Simplex.bounds?_columnAt] at hbounds
  exact Option.some.inj hbounds

theorem sides_eq (hi : lp.rows[i.val]? = some r) (hrow : lp.matrix.row? r = some row) :
    (s.rowAt i).sides = Simplex.toBounds (solverSides row).lower (solverSides row).upper := by
  have hsides := h.upToDate.sides hi hrow
  rw [Simplex.sides?_rowAt] at hsides
  exact Option.some.inj hsides

theorem coefficient_eq (hi : lp.rows[i.val]? = some r) (hj : lp.columns[j.val]? = some c) :
    lp.coefficientIn c r = s.coefficientAt i j := by
  have hr : r ∈ lp.rows := Array.mem_of_getElem? hi
  obtain ⟨row, hrow⟩ := h.certifiable.rowsExist r hr
  have hactive : lp.matrix.grid.isActive (.row r) = true := by
    rw [ConstraintMatrix.isActive_row hrow]
    exact h.certifiable.row_isActive_of_mem hr hrow
  rw [coefficientIn, h.sound.activeTotal_eq_linked hactive]
  exact (Simplex.coefficientAt_eq_of_cell? (h.upToDate.entry hj hi)).symm

/-! ## Points -/

theorem activity_eq (x : ColumnRef → Rat) (hi : lp.rows[i.val]? = some r) :
    lp.activityIn r x = s.activityAt (lp.placedIn s x) i :=
  h.sum_columns fun hj => by rw [h.coefficient_eq hi hj, placedIn_eq hj]

theorem cost_eq (x : ColumnRef → Rat) : lp.costIn x = s.costAt (lp.placedIn s x) :=
  h.sum_columns fun hj => by rw [h.objective_eq hj, placedIn_eq hj]

theorem allows_solverSides (hrow : lp.matrix.row? r = some row) (side : Side) :
    side.allows ((solverSides row).get side) = true := by
  obtain ⟨k, hk⟩ := Extended.isFinite_iff.mp (h.certifiable.proper.constant r row hrow)
  have hallows := h.certifiable.proper.sides r row side hrow
  have hget : (solverSides row).get side = row.spec.sides.get side - finite k := by
    rw [← hk]
    cases side <;> rfl
  rw [hget]
  cases side <;> cases hend : row.spec.sides.get _ <;> rw [hend] at hallows <;>
    first | rfl | cases hallows

/-- The same points are feasible. -/
theorem isFeasible_iff (x : ColumnRef → Rat) : lp.IsFeasible x ↔ s.IsFeasible (lp.placedIn s x) := by
  have hbounds {j : Fin s.nrColumns} {c : ColumnRef} (hj : lp.columns[j.val]? = some c) :
      (s.columnAt j).bounds.Contains (lp.placedIn s x j) ↔
        (lp.matrix.column c).spec.bounds.Contains (finite (x c)) := by
    rw [h.bounds_eq hj, placedIn_eq hj]
    exact (h.wellPosed.bounds c (Array.mem_of_getElem? hj)).1.contains_iff (h.certifiable.proper.bounds c)
  have hsides {i : Fin s.nrRows} {r : RowRef} {row : Row} (hi : lp.rows[i.val]? = some r)
      (hrow : lp.matrix.row? r = some row) :
      (s.rowAt i).sides.Contains (s.activityAt (lp.placedIn s x) i) ↔
        row.spec.sides.Contains (lp.activityAt r x + row.spec.constant) := by
    have hr : r ∈ lp.rows := Array.mem_of_getElem? hi
    rw [h.sides_eq hi hrow, ← h.activity_eq x hi, h.certifiable.activityAt_eq hr,
      ← h.certifiable.solverSides_contains_iff hrow]
    exact (h.wellPosed.sides r hr row hrow).1.contains_iff (h.allows_solverSides hrow)
  constructor
  · refine fun hx => ⟨fun j => ?_, fun i => ?_⟩
    · obtain ⟨c, hj⟩ := h.exists_column j
      exact (hbounds hj).mpr (hx.bounds c (Array.mem_of_getElem? hj))
    · obtain ⟨r, row, hi, hrow⟩ := h.exists_row i
      exact (hsides hi hrow).mpr (hx.sides r (Array.mem_of_getElem? hi) row hrow)
  · refine fun hx => ⟨fun c hc => ?_, fun r hr row hrow => ?_⟩
    · obtain ⟨j, hj⟩ := h.exists_position hc
      exact (hbounds hj).mp (hx.bounds j)
    · obtain ⟨i, hi⟩ := h.exists_rowPosition hr
      exact (hsides hi hrow).mp (hx.sides i)

/-! ## Values at positions -/

theorem columnValue_eq (v : Fin s.nrColumns → Rat) (hj : lp.columns[j.val]? = some c) :
    ((Simplex.toValues (Array.ofFn v)).getD
      ((lp.matrix.column c).solverPosition.getD 0) 0).rational = v j := by
  rw [h.certifiable.solverPosition_column hj, Option.getD_some, Simplex.getD_toValues,
    Extended.rational_finite]

theorem multiplierAt_eq (v : Fin s.nrRows → Rat) (hi : lp.rows[i.val]? = some r) :
    lp.multiplierAt (Simplex.toValues (Array.ofFn v)) r = v i := by
  obtain ⟨row, hrow⟩ := h.certifiable.rowsExist r (Array.mem_of_getElem? hi)
  rw [multiplierAt, hrow, Option.bind_some, h.certifiable.solverPosition_row hrow hi,
    Option.getD_some, Simplex.getD_toValues, Extended.rational_finite]

/-- Every point of the solver is one of the columns. -/
theorem exists_placedIn (x : Fin s.nrColumns → Rat) : ∃ x', lp.placedIn s x' = x := by
  refine ⟨fun c => ((Simplex.toValues (Array.ofFn x)).getD
    ((lp.matrix.column c).solverPosition.getD 0) 0).rational, funext fun j => ?_⟩
  obtain ⟨c, hj⟩ := h.exists_column j
  rw [placedIn_eq hj, h.columnValue_eq x hj]

theorem combined_eq (y : Fin s.nrRows → Rat) (hj : lp.columns[j.val]? = some c) :
    lp.combinedIn (Simplex.toValues (Array.ofFn y)) c = s.combinedAt y j :=
  h.sum_rows fun hi => by rw [h.coefficient_eq hi hj, h.multiplierAt_eq y hi, mul_comm]

/-! ## Certificates -/

/-- An optimal pair of the solver is a tight solution. -/
theorem tight {x : Fin s.nrColumns → Rat} {y : Fin s.nrRows → Rat} (hpair : s.OptimalPair x y)
    {solution : Solution} (hobjective : solution.objective = finite (s.costAt x))
    (hprimal : solution.primal = Simplex.toValues (Array.ofFn x))
    (hdual : solution.dual = Simplex.toValues (Array.ofFn y)) : lp.Tight solution := by
  have hvalue {j : Fin s.nrColumns} {c : ColumnRef} (hj : lp.columns[j.val]? = some c) :
      lp.primalAt solution c = x j := by
    rw [primalAt, hprimal, h.columnValue_eq x hj]
  have hmultiplier {i : Fin s.nrRows} {r : RowRef} (hi : lp.rows[i.val]? = some r) :
      lp.dualAt solution r = y i := by
    rw [dualAt_eq, hdual, h.multiplierAt_eq y hi]
  have hplaced : lp.placedIn s (lp.primalAt solution) = x := by
    funext j
    obtain ⟨c, hj⟩ := h.exists_column j
    rw [placedIn_eq hj, hvalue hj]
  have hactivity {i : Fin s.nrRows} {r : RowRef} (hi : lp.rows[i.val]? = some r) :
      lp.activityIn r (lp.primalAt solution) = s.activityAt x i := by
    rw [h.activity_eq _ hi, hplaced]
  have hreduced {j : Fin s.nrColumns} {c : ColumnRef} (hj : lp.columns[j.val]? = some c) :
      lp.reducedCostAt solution c = s.reducedCostAt y j := by
    rw [reducedCostAt_eq, hdual, h.objective_eq hj, h.combined_eq y hj, Simplex.reducedCostAt]
  have hfeasible : lp.IsFeasible (lp.primalAt solution) := by
    rw [h.isFeasible_iff, hplaced]
    exact hpair.toIsFeasible
  refine ⟨⟨?_, ?_⟩, ?_, fun r hr row hrow => ?_, fun r hr row hrow => ?_, hfeasible.bounds,
    fun c hc => ?_⟩
  · exact hprimal ▸ Simplex.isFinite_toValues
  · exact hdual ▸ Simplex.isFinite_toValues
  · rw [hobjective, h.cost_eq, hplaced]
  · rw [h.certifiable.solverSides_contains_iff hrow, ← h.certifiable.activityAt_eq hr]
    exact hfeasible.sides r hr row hrow
  · obtain ⟨i, hi⟩ := h.exists_rowPosition hr
    have hsupports := hpair.dual i
    rw [h.sides_eq hi hrow] at hsupports
    rw [hmultiplier hi, hactivity hi]
    exact Simplex.selects_of_supports hsupports
  · obtain ⟨j, hj⟩ := h.exists_position hc
    have hsupports := hpair.reducedCost j
    rw [h.bounds_eq hj] at hsupports
    rw [hreduced hj, hvalue hj]
    exact Simplex.selects_of_supports hsupports

/-- Multipliers that refute the linear program of the solver refute the active one. -/
theorem refutation {y side : Fin s.nrRows → Rat} {bound : Fin s.nrColumns → Rat}
    (hrefutes : s.Refutes y side bound) :
    ∃ side' bound', lp.Refutation (Simplex.toValues (Array.ofFn y)) side' bound' := by
  refine ⟨lp.multiplierAt (Simplex.toValues (Array.ofFn side)),
    fun c => ((Simplex.toValues (Array.ofFn bound)).getD
      ((lp.matrix.column c).solverPosition.getD 0) 0).rational, Simplex.isFinite_toValues,
    fun r hr row hrow => ?_, fun c hc => ?_, ?_⟩
  · obtain ⟨i, hi⟩ := h.exists_rowPosition hr
    have hsupports := hrefutes.sides i
    rw [h.sides_eq hi hrow] at hsupports
    rw [h.multiplierAt_eq y hi, h.multiplierAt_eq side hi]
    exact Simplex.selects_of_supports hsupports
  · obtain ⟨j, hj⟩ := h.exists_position hc
    have hsupports := hrefutes.bounds j
    rw [h.bounds_eq hj] at hsupports
    rw [h.combined_eq y hj, h.columnValue_eq bound hj]
    exact Simplex.selects_of_supports hsupports
  · rw [h.sum_columns (g := fun j => s.combinedAt y j * bound j) fun hj => by
        rw [h.combined_eq y hj, h.columnValue_eq bound hj],
      h.sum_rows (g := fun i => y i * side i) fun hi => by
        rw [h.multiplierAt_eq y hi, h.multiplierAt_eq side hi]]
    exact hrefutes.gap

/-- The ends that the solver has do not cross. -/
theorem uncrossed : s.Uncrossed where
  bounds j := by
    obtain ⟨c, hj⟩ := h.exists_column j
    rw [h.bounds_eq hj]
    exact Simplex.ordered_toBounds (h.wellPosed.bounds c (Array.mem_of_getElem? hj)).2
  sides i := by
    obtain ⟨r, row, hi, hrow⟩ := h.exists_row i
    have hle := (h.wellPosed.sides r (Array.mem_of_getElem? hi) row hrow).2
    rw [h.sides_eq hi hrow]
    refine Simplex.ordered_toBounds ?_
    change row.spec.sides.lower - row.spec.constant ≤ row.spec.sides.upper - row.spec.constant
    rw [Extended.sub_eq_add_neg, Extended.sub_eq_add_neg]
    exact Extended.add_le_add_right hle _

end Posed

/-- A coherent relaxation whose solver was told everything can be certified. -/
theorem Tracked.certifiable {σ : Type} [Solver σ] {lp : Relaxation σ} (h : lp.Tracked)
    (hsynced : lp.matrix.synced = true) (hproper : lp.matrix.Proper) (hlinked : lp.AllLinked) :
    lp.Certifiable where
  agrees := h.coherent.sound.agrees
  proper := hproper
  positioned := {
    activeColumn := fun c => h.coherent.placed.columns c trivial
    solverColumn := h.coherent.solverPosition_column
    activeRow := fun r row i hrow => by
      have hplace := ConstraintMatrix.row_places hrow
      have hposition := h.coherent.placed.rows r trivial i
      rwa [Places.activeRow, hplace] at hposition
    solverRow := fun _ _ i hrow => h.coherent.solverPosition_row hrow i }
  rowsExist r hr := by
    obtain ⟨row, hrow, -⟩ := h.coherent.exists_row_of_mem hr
    exact ⟨row, hrow⟩
  solverIsActive := ⟨(h.matched hsynced).columns, (h.matched hsynced).rows⟩
  allLinked := hlinked

/-- Where nothing is left to tell, the solver poses the active linear program. -/
theorem Faithful.posed (h : lp.Faithful) (hsynced : lp.matrix.synced = true) (hlp : lp.WellPosed) :
    lp.Posed lp.solver where
  wellPosed := hlp
  certifiable := h.tracked.certifiable hsynced hlp.proper hlp.allLinked
  sound := h.tracked.coherent.sound
  upToDate := h.upToDate hsynced

/-- So it does with another basis and another configuration. -/
theorem Posed.of_sameContents (h : lp.Posed s) {t : Simplex} (ht : Simplex.SameContents s t) :
    lp.Posed t where
  wellPosed := h.wellPosed
  certifiable := h.certifiable
  sound := h.sound
  upToDate := by
    obtain ⟨hrectangular, hnrColumns, hnrRows, hcost, hbounds, hsides, hentry⟩ := h.upToDate
    refine ⟨ht.rectangular hrectangular, ht.nrColumns.trans hnrColumns, ht.nrRows.trans hnrRows,
      fun hi => (ht.cost _).trans (hcost hi), fun hi => (ht.bounds _).trans (hbounds hi),
      fun hj hrow => (ht.sides _).trans (hsides hj hrow),
      fun hi hj => (ht.entry _ _).trans (hentry hi hj)⟩

end Relaxation

end CertifiedLp
