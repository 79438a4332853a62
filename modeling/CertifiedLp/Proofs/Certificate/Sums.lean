import Mathlib
import CertifiedLp.Relaxation.Certificate
import CertifiedLp.Proofs.Certificate.Totals

/-!
# Sums over the active linear program

When the solver has the active columns and rows, and every coefficient between them is linked, the
sums that a certificate computes over the entries of a line are sums over all active lines of
coefficient times value.
-/

namespace CertifiedLp

open Extended (finite)

theorem Extended.foldl_addProduct {α : Type} {xs : List α} {f g : α → Extended}
    (hf : ∀ x ∈ xs, (f x).isFinite = true) (hg : ∀ x ∈ xs, (g x).isFinite = true) (a : Rat) :
    xs.foldl (fun sum x => sum.addProduct (f x) (g x)) (finite a) =
      finite (a + (xs.map fun x => (f x).rational * (g x).rational).sum) := by
  induction xs generalizing a with
  | nil => simp
  | cons x xs ih =>
    rw [List.foldl_cons, addProduct_eq, ← finite_rational (hf x (by simp)),
      ← finite_rational (hg x (by simp)), finite_mul_finite, finite_add_finite,
      ih (fun y hy => hf y (by simp [hy])) (fun y hy => hg y (by simp [hy]))]
    simp [add_assoc]

theorem Extended.foldl_subProduct {α : Type} {xs : List α} {f g : α → Extended}
    (hf : ∀ x ∈ xs, (f x).isFinite = true) (hg : ∀ x ∈ xs, (g x).isFinite = true) (a : Rat) :
    xs.foldl (fun d x => d - f x * g x) (finite a) =
      finite (a - (xs.map fun x => (f x).rational * (g x).rational).sum) := by
  induction xs generalizing a with
  | nil => simp
  | cons x xs ih =>
    rw [List.foldl_cons, ← finite_rational (hf x (by simp)), ← finite_rational (hg x (by simp)),
      finite_mul_finite, finite_sub_finite, ih (fun y hy => hf y (by simp [hy]))
      (fun y hy => hg y (by simp [hy]))]
    simp [sub_sub]

/-- Entries can be summed partner by partner. -/
theorem sum_entries_by_partner {κ : Type} [DecidableEq κ] {partners : List κ}
    (hnodup : partners.Nodup) {es : List (Entry κ)} (hmem : ∀ e ∈ es, e.partner ∈ partners)
    (x : κ → Rat) :
    (es.map fun e => e.value.rational * x e.partner).sum =
      (partners.map fun p =>
        ((es.filter (·.partner = p)).map (·.value.rational)).sum * x p).sum := by
  induction es with
  | nil => simp
  | cons e es ih =>
    have hsplit : (partners.map fun p =>
        (((e :: es).filter (·.partner = p)).map (·.value.rational)).sum * x p).sum =
        (partners.map fun p => if p = e.partner then e.value.rational * x p else 0).sum +
          (partners.map fun p =>
            ((es.filter (·.partner = p)).map (·.value.rational)).sum * x p).sum := by
      rw [← List.sum_map_add]
      congr 1
      refine List.map_congr_left fun p _ => ?_
      by_cases h : e.partner = p
      · simp [h, add_mul]
      · simp [h, Ne.symm h]
    have hone : (partners.map fun p => if p = e.partner then e.value.rational * x p else 0).sum =
        e.value.rational * x e.partner := by
      rw [List.sum_map_ite_eq, hnodup.count]
      simp [hmem e (by simp)]
    rw [hsplit, hone, List.map_cons, List.sum_cons, ih fun e he => hmem e (by simp [he])]

/-- Items that know their positions in a list are different from each other. -/
theorem nodup_of_positions {α : Type} {xs : Array α} (position : α → Option Nat)
    (h : ∀ i x, xs[i]? = some x → position x = some i) : xs.toList.Nodup := by
  rw [List.nodup_iff_injective_getElem]
  intro i j hij
  have hi := h i xs.toList[i] (by simp)
  have hj := h j xs.toList[j] (by simp)
  rw [show xs.toList[i] = xs.toList[j] from hij] at hi
  exact Fin.ext (Option.some.inj (hi.symm.trans hj))

namespace Relaxation

variable {σ : Type} [Solver σ]

/-- A relaxation whose answers can be certified: its matrix is right, its numbers are those of a
linear program, the solver has the active lines, and every coefficient between these is linked. -/
structure Certifiable (lp : Relaxation σ) : Prop where
  agrees : lp.matrix.Agrees
  proper : lp.matrix.Proper
  positioned : lp.Positioned
  rowsExist : ∀ r ∈ lp.rows, ∃ row, lp.matrix.row? r = some row
  solverIsActive : lp.SolverIsActive
  allLinked : lp.AllLinked

/-- Only the matrix and the lists of active lines matter. -/
theorem Certifiable.congr {lp t : Relaxation σ} (h : lp.Certifiable) (hmatrix : t.matrix = lp.matrix)
    (hcolumns : t.columns = lp.columns) (hrows : t.rows = lp.rows) : t.Certifiable where
  agrees := hmatrix ▸ h.agrees
  proper := hmatrix ▸ h.proper
  positioned := {
    activeColumn := by
      rw [hmatrix, hcolumns]
      exact h.positioned.activeColumn
    solverColumn := by
      rw [hmatrix]
      exact h.positioned.solverColumn
    activeRow := by
      rw [hmatrix, hrows]
      exact h.positioned.activeRow
    solverRow := by
      rw [hmatrix]
      exact h.positioned.solverRow }
  rowsExist := by
    rw [hmatrix, hrows]
    exact h.rowsExist
  solverIsActive := ⟨by rw [hmatrix, hcolumns, h.solverIsActive.columns],
    by rw [hmatrix, hrows, h.solverIsActive.rows]⟩
  allLinked := by
    rw [AllLinked, hmatrix, hcolumns, hrows]
    exact h.allLinked

/-- The coefficient of a column in a row, as a rational number. -/
def coefficientIn (lp : Relaxation σ) (c : ColumnRef) (r : RowRef) : Rat :=
  (lp.matrix.column c).entries.activeTotal r

/-- The sum of coefficient times value over the active columns, as a rational number. -/
def activityIn (lp : Relaxation σ) (r : RowRef) (x : ColumnRef → Rat) : Rat :=
  (lp.columns.toList.map fun c => lp.coefficientIn c r * x c).sum

/-- The objective value of a point, as a rational number. -/
def costIn (lp : Relaxation σ) (x : ColumnRef → Rat) : Rat :=
  (lp.columns.toList.map fun c => (lp.matrix.column c).spec.objective.rational * x c).sum

namespace Certifiable

variable {lp : Relaxation σ} {c : ColumnRef} {r : RowRef} {row : Row}

theorem columns_nodup (h : lp.Certifiable) : lp.columns.toList.Nodup :=
  nodup_of_positions (fun c => (lp.matrix.column c).activePosition) fun i c hi =>
    (h.positioned.activeColumn c i).mpr hi

theorem rows_nodup (h : lp.Certifiable) : lp.rows.toList.Nodup := by
  refine nodup_of_positions (fun r => (lp.matrix.row? r).bind (·.activePosition)) fun i r hi => ?_
  obtain ⟨row, hrow⟩ := h.rowsExist r (Array.mem_of_getElem? hi)
  rw [hrow, Option.bind_some, h.positioned.activeRow r row i hrow]
  exact hi

theorem isActive_of_mem (h : lp.Certifiable) (hc : c ∈ lp.columns) :
    (lp.matrix.column c).isActive = true := by
  obtain ⟨i, hi⟩ := Array.mem_iff_getElem?.mp hc
  simp [Column.isActive, (h.positioned.activeColumn c i).mpr hi]

theorem mem_of_isActive (h : lp.Certifiable) (hc : (lp.matrix.column c).isActive = true) :
    c ∈ lp.columns := by
  obtain ⟨i, hi⟩ := Option.isSome_iff_exists.mp hc
  exact Array.mem_iff_getElem?.mpr ⟨i, (h.positioned.activeColumn c i).mp hi⟩

theorem row_isActive_of_mem (h : lp.Certifiable) (hr : r ∈ lp.rows)
    (hrow : lp.matrix.row? r = some row) : row.isActive = true := by
  obtain ⟨i, hi⟩ := Array.mem_iff_getElem?.mp hr
  simp [Row.isActive, (h.positioned.activeRow r row i hrow).mpr hi]

theorem mem_of_row_isActive (h : lp.Certifiable) (hrow : lp.matrix.row? r = some row)
    (hr : row.isActive = true) : r ∈ lp.rows := by
  obtain ⟨i, hi⟩ := Option.isSome_iff_exists.mp hr
  exact Array.mem_iff_getElem?.mpr ⟨i, (h.positioned.activeRow r row i hrow).mp hi⟩

/-- The position of an active column in the solver is that in the active linear program. -/
theorem solverPosition_column (h : lp.Certifiable) {i : Nat} (hi : lp.columns[i]? = some c) :
    (lp.matrix.column c).solverPosition = some i :=
  (h.positioned.solverColumn c i).mpr (by rw [h.solverIsActive.columns, hi])

theorem solverPosition_row (h : lp.Certifiable) {i : Nat} (hrow : lp.matrix.row? r = some row)
    (hi : lp.rows[i]? = some r) : row.solverPosition = some i :=
  (h.positioned.solverRow r row i hrow).mpr (by rw [h.solverIsActive.rows, hi])

/-- Between active lines, the coefficient is what the active part of the column has. -/
theorem coefficientAt_eq (h : lp.Certifiable) (hc : c ∈ lp.columns) (hr : r ∈ lp.rows) :
    lp.matrix.coefficientAt c r = finite (lp.coefficientIn c r) := by
  obtain ⟨row, hrow⟩ := h.rowsExist r hr
  have hlinked := h.allLinked c hc r hr
  have hrest : ∀ e ∈ (lp.matrix.column c).entries.entries.toList.drop
      (lp.matrix.column c).entries.nrActive, e.partner ≠ r := by
    intro e he hpartner
    obtain ⟨i, hi⟩ := List.getElem?_of_mem he
    rw [List.getElem?_drop, Array.getElem?_toList] at hi
    obtain ⟨row', hrow', hpart, -⟩ := h.agrees.columnEntry hi
    rw [hpartner, hrow] at hrow'
    cases hrow'
    have hne : e.link ≠ none := fun hnone =>
      hlinked (.inl ⟨e, Array.mem_of_getElem? hi, hpartner, hnone⟩)
    have hlt := hpart.mpr ⟨by simpa [Option.isSome_iff_ne_none] using hne,
      h.row_isActive_of_mem hr hrow⟩
    omega
  have hcolumn : (lp.matrix.column c).entries.valuesFor r (fun _ => true) =
      ((lp.matrix.column c).entries.activeEntries.filter (·.partner = r)).map (·.value) := by
    have hdrop : ((lp.matrix.column c).entries.entries.toList.drop
        (lp.matrix.column c).entries.nrActive).filter
          (fun e => e.partner = r && (fun _ => true) e) = [] :=
      List.filter_eq_nil_iff.mpr (by simpa using hrest)
    rw [Incidence.valuesFor, Incidence.activeEntries_eq_take,
      ← List.take_append_drop (lp.matrix.column c).entries.nrActive
        (lp.matrix.column c).entries.entries.toList, List.filter_append, hdrop]
    simp
  have hrowSide : row.entries.valuesFor c (·.link.isNone) = [] := by
    rw [Incidence.valuesFor, List.filter_eq_nil_iff.mpr, List.map_nil]
    intro e he htest
    simp only [Bool.and_eq_true, decide_eq_true_eq, Option.isNone_iff_eq_none] at htest
    exact hlinked (.inr ⟨row, hrow, e, by simpa using he, htest.1, htest.2⟩)
  rw [ConstraintMatrix.coefficientAt, ConstraintMatrix.storedValues, hrow, hcolumn]
  simp only [hrowSide, List.append_nil]
  rw [Extended.sum_eq_finite, List.map_map]
  · rfl
  · intro v hv
    obtain ⟨e, he, rfl⟩ := List.mem_map.mp hv
    obtain ⟨i, -, hi⟩ := Incidence.mem_activeEntries_iff.mp (List.mem_filter.mp he).1
    exact h.proper.columnValue c e (Array.mem_of_getElem? hi)

/-- The entries of an active row that count are for active columns. -/
theorem partner_mem_columns (h : lp.Certifiable) (hrow : lp.matrix.row? r = some row)
    {e : Entry ColumnRef} (he : e ∈ row.entries.activeEntries) : e.partner ∈ lp.columns := by
  obtain ⟨k, hk, hentry⟩ := Incidence.mem_activeEntries_iff.mp he
  exact h.mem_of_isActive ((h.agrees.rowEntry hrow hentry).1.mp hk).2

theorem partner_mem_rows (h : lp.Certifiable) {e : Entry RowRef}
    (he : e ∈ (lp.matrix.column c).entries.activeEntries) : e.partner ∈ lp.rows := by
  obtain ⟨i, hi, hentry⟩ := Incidence.mem_activeEntries_iff.mp he
  obtain ⟨row, hrow, hpart, -⟩ := h.agrees.columnEntry hentry
  exact h.mem_of_row_isActive hrow (hpart.mp hi).2

/-- A sum over the entries of an active row is one over the active columns. -/
theorem sum_row_entries (h : lp.Certifiable) (hr : r ∈ lp.rows)
    (hrow : lp.matrix.row? r = some row) (x : ColumnRef → Rat) :
    (row.entries.activeEntries.map fun e => e.value.rational * x e.partner).sum =
      lp.activityIn r x := by
  rw [activityIn, sum_entries_by_partner h.columns_nodup (fun e he => by
    simpa using h.partner_mem_columns hrow he) x]
  congr 1
  refine List.map_congr_left fun c hc => ?_
  rw [coefficientIn, h.agrees.activeTotal_eq hrow (h.row_isActive_of_mem hr hrow)
    (h.isActive_of_mem (by simpa using hc))]
  rfl

/-- A sum over the entries of an active column is one over the active rows. -/
theorem sum_column_entries (h : lp.Certifiable) (y : RowRef → Rat) :
    ((lp.matrix.column c).entries.activeEntries.map fun e => e.value.rational * y e.partner).sum =
      (lp.rows.toList.map fun r => lp.coefficientIn c r * y r).sum := by
  rw [sum_entries_by_partner h.rows_nodup (fun e he => by simpa using h.partner_mem_rows he) y]
  rfl

/-- The coefficients that the solver has for a row, with its value for every column. -/
theorem rowItems_map (h : lp.Certifiable) (hrow : lp.matrix.row? r = some row) {β : Type}
    (f : Nat → Extended → β) :
    (rowItems lp.matrix row).map (fun p => f p.1 p.2) =
      row.entries.activeEntries.map fun e =>
        f ((lp.matrix.column e.partner).solverPosition.getD 0) e.value := by
  rw [rowItems, List.map_filterMap]
  rw [← List.filterMap_eq_map]
  refine List.filterMap_congr fun e he => ?_
  obtain ⟨i, hi⟩ := Array.mem_iff_getElem?.mp (h.partner_mem_columns hrow he)
  simp [h.solverPosition_column hi]

theorem columnItems_map (h : lp.Certifiable) {β : Type} (f : Nat → Extended → β) :
    (columnItems lp.matrix (lp.matrix.column c)).map (fun p => f p.1 p.2) =
      (lp.matrix.column c).entries.activeEntries.map fun e =>
        f (((lp.matrix.row? e.partner).bind (·.solverPosition)).getD 0) e.value := by
  rw [columnItems, List.map_filterMap]
  rw [← List.filterMap_eq_map]
  refine List.filterMap_congr fun e he => ?_
  have hmem := h.partner_mem_rows he
  obtain ⟨row, hrow⟩ := h.rowsExist _ hmem
  obtain ⟨i, hi⟩ := Array.mem_iff_getElem?.mp hmem
  simp [hrow, h.solverPosition_row hrow hi]

/-- The activity of an active row at a point. -/
theorem activityAt_eq (h : lp.Certifiable) (hr : r ∈ lp.rows) (x : ColumnRef → Rat) :
    lp.activityAt r x = finite (lp.activityIn r x) := by
  rw [activityAt, activityIn, ← Extended.sum_map_finite, List.map_map]
  congr 1
  refine List.map_congr_left fun c hc => ?_
  rw [h.coefficientAt_eq (by simpa using hc) hr]
  rfl

/-- The objective value of a point. -/
theorem costAt_eq (h : lp.Certifiable) (x : ColumnRef → Rat) :
    lp.costAt x = finite (lp.costIn x) := by
  rw [costAt, costIn, ← Extended.sum_map_finite, List.map_map]
  congr 1
  refine List.map_congr_left fun c _ => ?_
  rw [← Extended.finite_rational (h.proper.objective c)]
  rfl

/-- A row holds an activity exactly when the sides that the solver is told do. -/
theorem solverSides_contains_iff (h : lp.Certifiable) (hrow : lp.matrix.row? r = some row)
    (q : Rat) :
    (solverSides row).Contains (finite q) ↔
      row.spec.sides.Contains (finite q + row.spec.constant) := by
  obtain ⟨k, hk⟩ := Extended.isFinite_iff.mp (h.proper.constant r row hrow)
  have hlower : row.spec.sides.lower - finite k ≤ finite q ↔
      row.spec.sides.lower ≤ finite (q + k) := by
    cases row.spec.sides.lower with
    | negInf => simp [Extended.sub_eq_add_neg, Extended.negInf_add_of_ne]
    | finite a => simp
    | posInf => simp [Extended.sub_eq_add_neg]
  have hupper : finite q ≤ row.spec.sides.upper - finite k ↔
      finite (q + k) ≤ row.spec.sides.upper := by
    cases row.spec.sides.upper with
    | negInf => simp [Extended.sub_eq_add_neg, Extended.negInf_add_of_ne]
    | finite a => simp [le_sub_iff_add_le]
    | posInf => simp [Extended.sub_eq_add_neg]
  have hends : solverSides row =
      ⟨row.spec.sides.lower - finite k, row.spec.sides.upper - finite k⟩ := by
    rw [← hk]
    rfl
  rw [hends, hk, Extended.finite_add_finite]
  exact and_congr hlower hupper

end Certifiable

end Relaxation

end CertifiedLp
