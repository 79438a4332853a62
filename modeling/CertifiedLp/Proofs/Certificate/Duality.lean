import Mathlib
import CertifiedLp.Proofs.Certificate.Sums
import CertifiedLp.Proofs.Run
import CertifiedLp.Proofs.Forgetting
import CertifiedLp.Relaxation.Consistency

/-!
# Proved objective values

A solution that a solver claims is accepted on the strength of its numbers alone. The dual bound
that is added up line by line is below the objective value of every feasible point, whatever the
dual values are: each line contributes multiplier times an end of its interval, on the side that
the sign of the multiplier makes the smaller one. If the primal values are checked, they are such a
point themselves, and the objective value is caught between the two.
-/

namespace CertifiedLp

open Extended (finite)

namespace Relaxation

/-- The selected end makes the product with the multiplier the smallest one in the interval. -/
theorem mul_selectedSide_le {y b v : Rat} {side : Side} {interval : Interval}
    (hside : selectedSide? (finite y) = some side) (hb : interval.get side = finite b)
    (hv : interval.Contains (finite v)) : y * b ≤ y * v := by
  rw [selectedSide?, Extended.sign_finite] at hside
  rcases lt_trichotomy y 0 with hy | rfl | hy
  · rw [if_neg (by linarith), if_pos hy] at hside
    obtain rfl := Option.some.inj hside
    have hle : v ≤ b := Extended.finite_le_finite.mp (hb ▸ hv.2)
    exact mul_le_mul_of_nonpos_left hle hy.le
  · simp
  · rw [if_pos hy] at hside
    obtain rfl := Option.some.inj hside
    have hle : b ≤ v := Extended.finite_le_finite.mp (hb ▸ hv.1)
    exact mul_le_mul_of_nonneg_left hle hy.le

theorem selectedSide?_eq_none {y : Rat} (h : selectedSide? (finite y) = none) : y = 0 := by
  rw [selectedSide?, Extended.sign_finite] at h
  split_ifs at h with hpositive hnegative
  exact le_antisymm (not_lt.mp hpositive) (not_lt.mp hnegative)

namespace Findings

variable {f : Findings} {checkPrimal checkDual : Bool} {interval : Interval} {value : Extended}

/-- A line with a value in its interval adds no more to the dual bound than multiplier times
value. -/
theorem dualBound_examine_le (checkPrimal checkDual : Bool) (value : Extended) {s y v : Rat}
    (hf : f.dualBound ≤ finite s) (hv : interval.Contains (finite v)) :
    (f.examine checkPrimal checkDual interval value (finite y)).dualBound ≤ finite (s + y * v) := by
  have hstart : ∀ p : Prop, [Decidable p] →
      (if p then { f with primalFeasible := false } else f).dualBound ≤ finite s := by
    intro p _
    split <;> exact hf
  rw [examine]
  cases hside : selectedSide? (finite y) with
  | none =>
    obtain rfl := selectedSide?_eq_none hside
    simpa using hstart _
  | some side =>
    dsimp only
    split
    · exact Extended.negInf_le _
    · next hfinite =>
      obtain ⟨b, hb⟩ := Extended.isFinite_iff.mp (by simpa using hfinite)
      rw [hb, Extended.addProduct_eq]
      exact Extended.add_finite_le (hstart _) (mul_selectedSide_le hside hb hv)

@[simp] theorem primalBound_examine (multiplier : Extended) :
    (f.examine checkPrimal checkDual interval value multiplier).primalBound = f.primalBound := by
  rw [examine]
  split <;> split <;> try rfl
  all_goals
    dsimp only
    split <;> rfl

/-- The values stay primal feasible if the new one is in its interval, as far as that is checked. -/
theorem primalFeasible_examine_iff (multiplier : Extended) :
    (f.examine checkPrimal checkDual interval value multiplier).primalFeasible = true ↔
      f.primalFeasible = true ∧ (checkPrimal = true → interval.Contains value) := by
  have hpart : (f.examine checkPrimal checkDual interval value multiplier).primalFeasible =
      (if checkPrimal && (value < interval.lower || interval.upper < value) then
        { f with primalFeasible := false } else f).primalFeasible := by
    rw [examine]
    split
    · rfl
    · dsimp only
      split <;> rfl
  have hcontains : interval.Contains value ↔
      ¬ (value < interval.lower ∨ interval.upper < value) := by
    simp [Interval.Contains, Extended.lt_iff_not_le]
  rw [hpart, hcontains]
  cases checkPrimal
  · simp
  · by_cases houtside : value < interval.lower ∨ interval.upper < value <;> simp [houtside]

end Findings

end Relaxation

/-! ## The values of a solution -/

/-- The primal and dual values are rational numbers. -/
structure Solution.IsFinite (s : Solution) : Prop where
  primal : ∀ v ∈ s.primal, v.isFinite = true
  dual : ∀ v ∈ s.dual, v.isFinite = true

theorem isFinite_getD {values : Array Extended} (h : ∀ v ∈ values, v.isFinite = true) (i : Nat) :
    (values.getD i 0).isFinite = true := by
  rw [Array.getD_eq_getD_getElem?]
  rcases hi : values[i]? with _ | v
  · rfl
  · exact h v (Array.mem_of_getElem? hi)

/-- Weak duality is an exchange of sums. -/
theorem sum_mul_sum_comm {ι : Type} (rows : List ι) (columns : List ColumnRef)
    (a : ColumnRef → ι → Rat) (x : ColumnRef → Rat) (y : ι → Rat) :
    (rows.map fun r => y r * (columns.map fun c => a c r * x c).sum).sum =
      (columns.map fun c => (rows.map fun r => a c r * y r).sum * x c).sum := by
  induction rows with
  | nil => simp
  | cons r rows ih =>
    rw [List.map_cons, List.sum_cons, ih, ← List.sum_map_mul_left, ← List.sum_map_add]
    congr 1
    refine List.map_congr_left fun c _ => ?_
    rw [List.map_cons, List.sum_cons]
    ring

namespace Relaxation

variable {σ : Type} [Solver σ] {lp : Relaxation σ} {m : ConstraintMatrix} {s : Solution}
variable {c : ColumnRef} {r : RowRef} {row row' : Row}

/-- The primal value of a column, at its position in the solver. -/
def primalAt (lp : Relaxation σ) (s : Solution) (c : ColumnRef) : Rat :=
  (s.primal.getD ((lp.matrix.column c).solverPosition.getD 0) 0).rational

/-- The dual value of a row, at its position in the solver. -/
def dualAt (lp : Relaxation σ) (s : Solution) (r : RowRef) : Rat :=
  (s.dual.getD (((lp.matrix.row? r).bind (·.solverPosition)).getD 0) 0).rational

/-- The reduced cost of a column, which belongs to the dual values. -/
def reducedCostAt (lp : Relaxation σ) (s : Solution) (c : ColumnRef) : Rat :=
  (lp.matrix.column c).spec.objective.rational -
    (lp.rows.toList.map fun r => lp.coefficientIn c r * lp.dualAt s r).sum

/-- The dual value of every row times its activity and the reduced cost of every column times its
value add up to the objective value. -/
theorem sum_multipliers_eq_costIn (lp : Relaxation σ) (s : Solution) (x : ColumnRef → Rat) :
    (lp.rows.toList.map fun r => lp.dualAt s r * lp.activityIn r x).sum +
      (lp.columns.toList.map fun c => lp.reducedCostAt s c * x c).sum = lp.costIn x := by
  simp only [activityIn, reducedCostAt, costIn]
  rw [sum_mul_sum_comm, ← List.sum_map_add]
  congr 1
  refine List.map_congr_left fun c _ => ?_
  ring

theorem rowItems_eq_of_without (h : m.without .values = lp.matrix.without .values)
    (hrow : Forgetting.values.row row' = Forgetting.values.row row) :
    rowItems m row' = rowItems lp.matrix row := by
  have hentries : row'.entries = row.entries := Forgetting.row_congr Row.entries hrow fun _ => rfl
  rw [rowItems, rowItems, hentries]
  refine List.filterMap_congr fun e _ => ?_
  have hposition : (m.column e.partner).solverPosition =
      (lp.matrix.column e.partner).solverPosition :=
    Forgetting.column_congr Column.solverPosition
      (ConstraintMatrix.column_eq_of_without h e.partner) fun _ => rfl
  rw [hposition]

theorem columnItems_eq_of_without (h : m.without .values = lp.matrix.without .values) :
    columnItems m (m.column c) = columnItems lp.matrix (lp.matrix.column c) := by
  have hentries : (m.column c).entries = (lp.matrix.column c).entries :=
    Forgetting.column_congr Column.entries
      (ConstraintMatrix.column_eq_of_without h c) fun _ => rfl
  rw [columnItems, columnItems, hentries]
  refine List.filterMap_congr fun e _ => ?_
  have hposition : (m.row? e.partner).bind (·.solverPosition) =
      (lp.matrix.row? e.partner).bind (·.solverPosition) := by
    have hmap (m : ConstraintMatrix) : (m.row? e.partner).bind (·.solverPosition) =
        ((m.without .values).row? e.partner).bind (·.solverPosition) := by
      rw [ConstraintMatrix.row?_without, Option.bind_map]
      rfl
    rw [hmap m, hmap lp.matrix, h]
  rw [hposition]

namespace Certifiable

theorem isFinite_of_mem_rowItems (h : lp.Certifiable)
    (hrow : lp.matrix.row? r = some row) {item : Nat × Extended}
    (hitem : item ∈ rowItems lp.matrix row) : item.2.isFinite = true := by
  obtain ⟨e, he, hmap⟩ := List.mem_filterMap.mp hitem
  obtain ⟨position, -, rfl⟩ := Option.map_eq_some_iff.mp hmap
  obtain ⟨k, -, hk⟩ := Incidence.mem_activeEntries_iff.mp he
  exact h.proper.rowValue r row hrow e (Array.mem_of_getElem? hk)

theorem isFinite_of_mem_columnItems (h : lp.Certifiable) {item : Nat × Extended}
    (hitem : item ∈ columnItems lp.matrix (lp.matrix.column c)) : item.2.isFinite = true := by
  obtain ⟨e, he, hmap⟩ := List.mem_filterMap.mp hitem
  obtain ⟨position, -, rfl⟩ := Option.map_eq_some_iff.mp hmap
  obtain ⟨k, -, hk⟩ := Incidence.mem_activeEntries_iff.mp he
  exact h.proper.columnValue c e (Array.mem_of_getElem? hk)

theorem weighItems_rowItems (h : lp.Certifiable) (hs : s.IsFinite) (hr : r ∈ lp.rows)
    (hrow : lp.matrix.row? r = some row) :
    weighItems (rowItems lp.matrix row) s.primal = finite (lp.activityIn r (lp.primalAt s)) := by
  have hfold : weighItems (rowItems lp.matrix row) s.primal = (rowItems lp.matrix row).foldl
      (fun sum p => sum.addProduct p.2 (s.primal.getD p.1 0)) (finite 0) := rfl
  rw [hfold, Extended.foldl_addProduct (fun p hp => h.isFinite_of_mem_rowItems hrow hp)
    (fun p _ => isFinite_getD hs.primal p.1), zero_add,
    h.rowItems_map hrow fun i a => a.rational * (s.primal.getD i 0).rational,
    ← h.sum_row_entries hr hrow]
  rfl

theorem foldl_columnItems (h : lp.Certifiable) (hs : s.IsFinite) (c : ColumnRef) :
    (columnItems lp.matrix (lp.matrix.column c)).foldl (fun d (rowPosition, a) =>
      d - a * s.dual.getD rowPosition 0) (lp.matrix.column c).spec.objective =
      finite (lp.reducedCostAt s c) := by
  conv_lhs => rw [← Extended.finite_rational (h.proper.objective c)]
  change (columnItems lp.matrix (lp.matrix.column c)).foldl
    (fun d p => d - p.2 * s.dual.getD p.1 0) _ = _
  rw [Extended.foldl_subProduct (fun p hp => h.isFinite_of_mem_columnItems hp)
    (fun p _ => isFinite_getD hs.dual p.1),
    h.columnItems_map fun i a => a.rational * (s.dual.getD i 0).rational, reducedCostAt,
    ← h.sum_column_entries (lp.dualAt s)]
  rfl

end Certifiable

/-! ## Looking at all lines -/

/-- What is known once some rows and columns were looked at. -/
structure Examined (lp : Relaxation σ) (s : Solution) (rows : List RowRef)
    (columns : List ColumnRef) (f : Findings) (m : ConstraintMatrix) : Prop where
  sameData : m.without .values = lp.matrix.without .values
  dualBound : ∀ x, lp.IsFeasible x → f.dualBound ≤ finite
    ((rows.map fun r => lp.dualAt s r * lp.activityIn r x).sum +
      (columns.map fun c => lp.reducedCostAt s c * x c).sum)
  sides : f.primalFeasible = true → lp.settings.checkPrimal = true → ∀ r ∈ rows, ∀ row,
    lp.matrix.row? r = some row →
      row.spec.sides.Contains (lp.activityAt r (lp.primalAt s) + row.spec.constant)
  bounds : f.primalFeasible = true → lp.settings.checkPrimal = true → ∀ c ∈ columns,
    (lp.matrix.column c).spec.bounds.Contains (finite (lp.primalAt s c))
  primalBound : f.primalBound = finite
    (columns.map fun c => (lp.matrix.column c).spec.objective.rational * lp.primalAt s c).sum
  stored : ∀ c ∈ columns, (m.column c).values.primal = finite (lp.primalAt s c)

theorem Examined.start (lp : Relaxation σ) (s : Solution) :
    lp.Examined s [] [] .start lp.matrix where
  sameData := rfl
  dualBound := by simp [Findings.start, Extended.zero_def]
  sides := by simp
  bounds := by simp
  primalBound := rfl
  stored := by simp

variable {rows : List RowRef} {columns : List ColumnRef} {f : Findings} {i : Nat}
variable {E : LpError → Relaxation σ → Prop}

/-- What is found out about a row, and that nothing but values changes. -/
theorem ends_acceptRow_exactly (basis : Basis) (h : lp.Certifiable) (hs : s.IsFinite)
    (hi : lp.rows[i]? = some r) (hrow : lp.matrix.row? r = some row)
    (hm : m.without .values = lp.matrix.without .values) :
    Ends (acceptRow s basis f r i) { lp with matrix := m }
      (fun f' lp' => (∃ m', lp' = { lp with matrix := m' } ∧
          m'.without .values = lp.matrix.without .values) ∧
        f' = f.examine lp.settings.checkPrimal lp.settings.checkDual (solverSides row)
          (finite (lp.activityIn r (lp.primalAt s))) (finite (lp.dualAt s r))) E := by
  obtain ⟨row', hrow', hsame⟩ := ConstraintMatrix.row_eq_of_without hm hrow
  have hsides : solverSides row' = solverSides row := Forgetting.row_congr solverSides hsame fun _ => rfl
  have hdual : s.dual.getD i 0 = finite (lp.dualAt s r) := by
    rw [dualAt, hrow, Option.bind_some, h.solverPosition_row hrow hi, Option.getD_some,
      Extended.finite_rational (isFinite_getD hs.dual i)]
  have hactivity : weighItems (rowItems m row') s.primal =
      finite (lp.activityIn r (lp.primalAt s)) := by
    rw [rowItems_eq_of_without hm hsame, h.weighItems_rowItems hs (Array.mem_of_getElem? hi) hrow]
  have hget : ({ lp with matrix := m } : Relaxation σ).matrix.row? r = some row' := hrow'
  simp only [acceptRow, Ends.bind_iff, ends_getRow hget, Ends.get_iff, ends_updateRow hget,
    Ends.pure_iff]
  refine ⟨⟨_, rfl, (ConstraintMatrix.without_modifyRow m r ?_).trans hm⟩, ?_⟩
  · exact fun _ => rfl
  · rw [hactivity, hdual, hsides]

theorem ends_acceptRow (basis : Basis) (h : lp.Certifiable) (hs : s.IsFinite) (hi : lp.rows[i]? = some r)
    (hf : lp.Examined s rows [] f m) :
    Ends (acceptRow s basis f r i) { lp with matrix := m }
      (fun f' lp' => ∃ m', lp' = { lp with matrix := m' } ∧ lp.Examined s (rows ++ [r]) [] f' m')
      E := by
  have hr : r ∈ lp.rows := Array.mem_of_getElem? hi
  obtain ⟨row, hrow⟩ := h.rowsExist r hr
  refine (ends_acceptRow_exactly basis h hs hi hrow hf.sameData).mono_ok ?_
  rintro _ _ ⟨⟨m', rfl, hm'⟩, rfl⟩
  refine ⟨m', rfl, hm', ?_, ?_, by simp, ?_, by simp⟩
  · intro x hx
    have hv : (solverSides row).Contains (finite (lp.activityIn r x)) := by
      rw [h.solverSides_contains_iff hrow, ← h.activityAt_eq hr]
      exact hx.sides r hr row hrow
    have hbound := Findings.dualBound_examine_le (y := lp.dualAt s r) lp.settings.checkPrimal
      lp.settings.checkDual (finite (lp.activityIn r (lp.primalAt s))) (hf.dualBound x hx) hv
    simpa using hbound
  · intro hfeasible hcheck r' hr' row'' hrow''
    rw [Findings.primalFeasible_examine_iff] at hfeasible
    rcases List.mem_append.mp hr' with hr' | hr'
    · exact hf.sides hfeasible.1 hcheck r' hr' row'' hrow''
    · obtain rfl := List.mem_singleton.mp hr'
      rw [hrow] at hrow''
      cases hrow''
      rw [h.activityAt_eq hr, ← h.solverSides_contains_iff hrow]
      exact hfeasible.2 hcheck
  · rw [Findings.primalBound_examine, hf.primalBound]

/-- What is found out about a column, and that nothing but its values changes. -/
theorem ends_acceptColumn_exactly (basis : Basis) (h : lp.Certifiable) (hs : s.IsFinite)
    (hi : lp.columns[i]? = some c) (hm : m.without .values = lp.matrix.without .values) :
    Ends (acceptColumn s basis f c i) { lp with matrix := m }
      (fun f' lp' => lp' = { lp with matrix := m.modifyColumn c fun column => { column with
            values := ⟨finite (lp.primalAt s c), finite (lp.reducedCostAt s c),
              basis.columns.getD i default⟩ } } ∧
        f' = { f.examine lp.settings.checkPrimal lp.settings.checkDual
            (lp.matrix.column c).spec.bounds (finite (lp.primalAt s c))
            (finite (lp.reducedCostAt s c)) with
          primalBound := f.primalBound.addProduct (lp.matrix.column c).spec.objective
            (finite (lp.primalAt s c)) }) E := by
  have hspec : (m.column c).spec = (lp.matrix.column c).spec :=
    Forgetting.column_congr Column.spec (ConstraintMatrix.column_eq_of_without hm c) fun _ => rfl
  have hprimal : s.primal.getD i 0 = finite (lp.primalAt s c) := by
    rw [primalAt, h.solverPosition_column hi, Option.getD_some,
      Extended.finite_rational (isFinite_getD hs.primal i)]
  have hreduced : (columnItems m (m.column c)).foldl (fun d (rowPosition, a) =>
      d - a * s.dual.getD rowPosition 0) (m.column c).spec.objective =
      finite (lp.reducedCostAt s c) := by
    rw [columnItems_eq_of_without hm, hspec, h.foldl_columnItems hs]
  simp only [acceptColumn, Ends.bind_iff, Ends.get_iff, ends_modifyMatrix, Ends.pure_iff]
  rw [hreduced, hprimal, hspec]
  exact ⟨rfl, by rw [Findings.primalBound_examine]⟩

theorem ends_acceptColumn (basis : Basis) (h : lp.Certifiable) (hs : s.IsFinite)
    (hi : lp.columns[i]? = some c)
    (hf : lp.Examined s rows columns f m) :
    Ends (acceptColumn s basis f c i) { lp with matrix := m }
      (fun f' lp' => ∃ m', lp' = { lp with matrix := m' } ∧
        lp.Examined s rows (columns ++ [c]) f' m') E := by
  have hexists : c.index < m.columns.size := by
    refine ConstraintMatrix.lt_size_of_column_ne fun hnew => ?_
    have hposition : (m.column c).solverPosition = some i :=
      (Forgetting.column_congr Column.solverPosition
        (ConstraintMatrix.column_eq_of_without hf.sameData c) fun _ => rfl).trans
        (h.solverPosition_column hi)
    rw [hnew] at hposition
    cases hposition
  refine (ends_acceptColumn_exactly basis h hs hi hf.sameData).mono_ok ?_
  rintro _ _ ⟨rfl, rfl⟩
  refine ⟨_, rfl, ?_, ?_, ?_, ?_, ?_, ?_⟩
  · refine (ConstraintMatrix.without_modifyColumn m c ?_).trans hf.sameData
    exact fun _ => rfl
  · intro x hx
    have hbound := Findings.dualBound_examine_le (y := lp.reducedCostAt s c)
      lp.settings.checkPrimal lp.settings.checkDual (finite (lp.primalAt s c)) (hf.dualBound x hx)
      (hx.bounds c (Array.mem_of_getElem? hi))
    simpa [add_assoc] using hbound
  · intro hfeasible
    exact hf.sides ((Findings.primalFeasible_examine_iff _).mp hfeasible).1
  · intro hfeasible hcheck c' hc'
    have hfeasible' := (Findings.primalFeasible_examine_iff _).mp hfeasible
    rcases List.mem_append.mp hc' with hc' | hc'
    · exact hf.bounds hfeasible'.1 hcheck c' hc'
    · obtain rfl := List.mem_singleton.mp hc'
      exact hfeasible'.2 hcheck
  · have hcost := Extended.finite_rational (h.proper.objective c)
    dsimp only
    rw [hf.primalBound, ← hcost, Extended.addProduct_eq, Extended.finite_mul_finite,
      Extended.finite_add_finite]
    simp
  · intro c' hc'
    by_cases heq : c = c'
    · subst heq
      rw [ConstraintMatrix.column_modifyColumn_self hexists]
    · rw [ConstraintMatrix.column_modifyColumn_of_ne heq]
      refine hf.stored c' ?_
      simpa [Ne.symm heq] using hc'

@[simp] theorem ends_writeIf {write : Bool} {a : Approximation}
    {Q : Approximation → Relaxation σ → Prop} :
    Ends (writeIf write a) lp Q E ↔ Q (if write then lp.writeTo a else a) lp := by
  cases write <;> simp [writeIf]

/-- Every row and then every column is looked at once, for an assertion on those that were looked at.
-/
theorem ends_acceptSolution_keeps (h : lp.Certifiable)
    (hsolution : Solver.solution lp.solver = .ok s)
    {I : List RowRef → List ColumnRef → Findings → ConstraintMatrix → Prop}
    (hstart : I [] [] .start lp.matrix)
    (hrow : ∀ basis {rows f m r i}, lp.rows[i]? = some r → I rows [] f m →
      Ends (acceptRow s basis f r i) { lp with matrix := m }
        (fun f' t => ∃ m', t = { lp with matrix := m' } ∧ I (rows ++ [r]) [] f' m') E)
    (hcolumn : ∀ basis {columns f m c i}, lp.columns[i]? = some c → I lp.rows.toList columns f m →
      Ends (acceptColumn s basis f c i) { lp with matrix := m }
        (fun f' t => ∃ m', t = { lp with matrix := m' } ∧ I lp.rows.toList (columns ++ [c]) f' m') E)
    (hbasis : ∀ e, Solver.basis lp.solver = .error e → E (.solver e) lp) (a : Approximation)
    (write : Bool) (limit : Option Extended) :
    Ends (acceptSolution a write limit) lp
      (fun out t => ∃ f m, out.1 = f.prove s.objective limit ∧
        I lp.rows.toList lp.columns.toList f m ∧
        t = { lp with
          matrix := m
          solverObjective := s.objective
          flags := { lp.flags with
            primalFeasible := f.primalFeasible
            dualFeasible := f.dualFeasible
            primalChecked := lp.settings.checkPrimal
            dualChecked := lp.settings.checkDual } }) E := by
  simp only [acceptSolution, Ends.bind_iff, ends_askSolver_iff, hsolution, Except.ok.injEq,
    forall_eq', Ends.get_iff, reduceCtorEq, false_implies, implies_true, and_true]
  refine ⟨fun basis _ => ?_, hbasis⟩
  have hrows : Ends (lp.matrix.solverRows.toList.zipIdx.foldlM (fun f x =>
      acceptRow s basis f x.1 x.2) Findings.start) lp
      (fun f t => ∃ m, t = { lp with matrix := m } ∧ I lp.rows.toList [] f m) E := by
    refine (Ends.foldlM_list (fun done f t => ∃ m, t = { lp with matrix := m } ∧
      I (done.map (·.1)) [] f m) ⟨lp.matrix, rfl, hstart⟩ ?_).mono_ok ?_
    · rintro done ⟨r, i⟩ rest f t hsplit ⟨m, rfl, hf⟩
      have hi : lp.rows[i]? = some r := by
        have hmem : (r, i) ∈ lp.matrix.solverRows.toList.zipIdx := by rw [hsplit]; simp
        rw [← h.solverIsActive.rows, ← Array.getElem?_toList]
        exact List.mk_mem_zipIdx_iff_getElem?.mp hmem
      simpa using hrow basis hi hf
    · rintro f t ⟨m, ht, hf⟩
      refine ⟨m, ht, ?_⟩
      rwa [List.zipIdx_map_fst, h.solverIsActive.rows] at hf
  refine hrows.mono_ok ?_
  rintro f t ⟨m, rfl, hf⟩
  have hcolumns : Ends (lp.matrix.solverColumns.toList.zipIdx.foldlM (fun f x =>
      acceptColumn s basis f x.1 x.2) f) { lp with matrix := m }
      (fun f t => ∃ m, t = { lp with matrix := m } ∧ I lp.rows.toList lp.columns.toList f m) E := by
    refine (Ends.foldlM_list (fun done f t => ∃ m, t = { lp with matrix := m } ∧
      I lp.rows.toList (done.map (·.1)) f m) ⟨m, rfl, hf⟩ ?_).mono_ok ?_
    · rintro done ⟨c, i⟩ rest f t hsplit ⟨m, rfl, hf⟩
      have hi : lp.columns[i]? = some c := by
        have hmem : (c, i) ∈ lp.matrix.solverColumns.toList.zipIdx := by rw [hsplit]; simp
        rw [← h.solverIsActive.columns, ← Array.getElem?_toList]
        exact List.mk_mem_zipIdx_iff_getElem?.mp hmem
      simpa using hcolumn basis hi hf
    · rintro f t ⟨m, ht, hf⟩
      refine ⟨m, ht, ?_⟩
      rwa [List.zipIdx_map_fst, h.solverIsActive.columns] at hf
  refine hcolumns.mono_ok ?_
  rintro f t ⟨m, rfl, hf⟩
  simp only [Ends.modify_iff, ends_writeIf, Ends.pure_iff]
  exact ⟨f, m, rfl, hf, rfl⟩

/-- Every line is looked at once, and nothing but values, the objective value and what is known
about the solution changes. -/
theorem ends_acceptSolution (h : lp.Certifiable) (hsolution : Solver.solution lp.solver = .ok s)
    (hs : s.IsFinite) (a : Approximation) (write : Bool) (limit : Option Extended) :
    Ends (acceptSolution a write limit) lp
      (fun out lp' => ∃ f, out.1 = f.prove s.objective limit ∧
        lp.Examined s lp.rows.toList lp.columns.toList f lp'.matrix ∧
        lp'.solverObjective = s.objective) fun _ _ => True := by
  refine (ends_acceptSolution_keeps h hsolution (I := lp.Examined s) (.start lp s)
    (fun basis => ends_acceptRow basis h hs) (fun basis => ends_acceptColumn basis h hs)
    (fun _ _ => trivial) a write limit).mono_ok ?_
  rintro out _ ⟨f, m, hproved, hf, rfl⟩
  exact ⟨f, hproved, hf, rfl⟩

/-- The dual bound is a bound for every feasible point. -/
theorem Examined.dualBound_le_costAt (hf : lp.Examined s lp.rows.toList lp.columns.toList f m)
    (h : lp.Certifiable) {x : ColumnRef → Rat} (hx : lp.IsFeasible x) : f.dualBound ≤ lp.costAt x := by
  rw [h.costAt_eq, ← lp.sum_multipliers_eq_costIn s]
  exact hf.dualBound x hx

theorem certifiable_of_isConsistent (hconsistent : lp.isConsistent = true)
    (hproper : lp.matrix.Proper) (hpositioned : lp.Positioned) (hsolver : lp.SolverIsActive)
    (hlinked : lp.AllLinked) : lp.Certifiable := by
  simp only [isConsistent, Bool.and_eq_true] at hconsistent
  obtain ⟨⟨⟨⟨⟨hmatrix, -⟩, -⟩, hpositions⟩, -⟩, -⟩ := hconsistent
  refine ⟨ConstraintMatrix.agrees_of_isConsistent hmatrix, hproper, hpositioned, ?_, hsolver,
    hlinked⟩
  intro r hr
  rw [positionsAgree, Bool.and_eq_true, List.all_eq_true, List.all_eq_true] at hpositions
  obtain ⟨i, hi⟩ := Array.mem_iff_getElem?.mp hr
  have hrow := hpositions.2 (r, i)
    (List.mk_mem_zipIdx_iff_getElem?.mpr (by rwa [Array.getElem?_toList]))
  cases hrow? : lp.matrix.row? r with
  | none => simp [hrow?] at hrow
  | some row => exact ⟨row, rfl⟩

/-- No feasible point has an objective value below one that is proved, and a solution that is
checked to be primal feasible attains it. Under a limit, no feasible point is below the limit. -/
theorem acceptSolution_sound {lp lp' : Relaxation σ} {a a' : Approximation} {write : Bool}
    {limit : Option Extended} (hconsistent : lp.isConsistent = true)
    (hproper : lp.matrix.Proper) (hpositioned : lp.Positioned) (hsolver : lp.SolverIsActive)
    (hlinked : lp.AllLinked) (hsolution : Solver.solution lp.solver = .ok s) (hs : s.IsFinite)
    (hrun : (acceptSolution a write limit).run.run lp = (.ok (true, a'), lp')) :
    (limit = none →
      (∀ x, lp.IsFeasible x → lp'.solverObjective ≤ lp.costAt x) ∧
        (lp.settings.checkPrimal = true → ∃ x,
          (∀ c ∈ lp.columns, (lp'.matrix.column c).values.primal = finite (x c)) ∧
            lp.IsFeasible x ∧ lp.costAt x = lp'.solverObjective)) ∧
      ∀ l, limit = some l → ∀ x, lp.IsFeasible x → l ≤ lp.costAt x := by
  have h := certifiable_of_isConsistent hconsistent hproper hpositioned hsolver hlinked
  obtain ⟨f, hproved, hf, hobjective⟩ :=
    (ends_acceptSolution h hsolution hs a write limit).of_ok hrun
  replace hproved := hproved.symm
  have hdual (x : ColumnRef → Rat) (hx : lp.IsFeasible x) : f.dualBound ≤ lp.costAt x :=
    hf.dualBound_le_costAt h hx
  constructor
  · rintro rfl
    simp only [Findings.prove, Bool.and_eq_true, decide_eq_true_eq] at hproved
    obtain ⟨⟨⟨hprimal, -⟩, hlower⟩, hupper⟩ := hproved
    rw [hobjective]
    refine ⟨fun x hx => Extended.le_trans hupper (hdual x hx), fun hcheck => ?_⟩
    have hfeasible : lp.IsFeasible (lp.primalAt s) :=
      ⟨fun c hc => hf.bounds hprimal hcheck c (by simpa using hc),
        fun r hr => hf.sides hprimal hcheck r (by simpa using hr)⟩
    have hcost : f.primalBound = lp.costAt (lp.primalAt s) := by
      rw [hf.primalBound, h.costAt_eq, costIn]
    refine ⟨lp.primalAt s, fun c hc => hf.stored c (by simpa using hc), hfeasible, ?_⟩
    refine Extended.le_antisymm (hcost ▸ hlower) ?_
    exact Extended.le_trans hupper (hdual _ hfeasible)
  · rintro l rfl x hx
    simp only [Findings.prove, Bool.and_eq_true, decide_eq_true_eq] at hproved
    exact Extended.le_trans hproved.2 (hdual x hx)

/-- A solver that claims the right solution is believed. -/
theorem acceptSolution_single :
    let lp := single 1 (some ⟨1, #[1], #[1], #[1], #[0]⟩) none
    let lp' := ((acceptSolution .empty false none).run.run lp).2
    lp.isConsistent = true ∧ (∀ x, lp.IsFeasible x → lp'.solverObjective ≤ lp.costAt x) ∧
      ∃ x, (∀ c ∈ lp.columns, (lp'.matrix.column c).values.primal = finite (x c)) ∧
        lp.IsFeasible x ∧ lp.costAt x = lp'.solverObjective := by
  intro lp lp'
  have hrun : (acceptSolution .empty false none).run.run lp = (.ok (true, .empty), lp') :=
    Prod.ext (by decide +kernel) rfl
  have hsound := acceptSolution_sound (isConsistent_single ..) (proper_single ..)
    (positioned_single ..) ⟨rfl, rfl⟩ (allLinked_single _ _ _) rfl ⟨by simp; rfl, by simp; rfl⟩ hrun
  exact ⟨isConsistent_single .., (hsound.1 rfl).1, (hsound.1 rfl).2 rfl⟩

end Relaxation

end CertifiedLp
