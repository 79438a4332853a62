import Mathlib
import CertifiedLp.Proofs.Matrix.Keeping
import CertifiedLp.Proofs.Relaxation.Actions
import CertifiedLp.Proofs.Relaxation.Informing

/-!
# What operations leave alone

Operations that change no objective, bound, side and constant, from the strictest to the freest:
*steady* ones leave all but the coefficients and the values of a solution alone, and may free rows,
those that leave a relaxation *intact* may also bring the solver up to date, and others only keep what
the lines say and which of them are active.
-/

namespace CertifiedLp

namespace ConstraintMatrix

variable {m m' : ConstraintMatrix} {scope : Scope} {gone gone' : Set RowRef} {r : RowRef} {row : Row}

/-- Lines come from the same variables and say the same. There may be new ones, and some rows may be
gone. -/
structure SameSpecs (gone : Set RowRef) (m m' : ConstraintMatrix) : Prop where
  nrColumns : m.columns.size ≤ m'.columns.size
  nrRows : m.rows.size ≤ m'.rows.size
  origin : ∀ {c}, c.index < m.columns.size → (m'.column c).origin = (m.column c).origin
  column : ∀ {c}, c.index < m.columns.size → (m'.column c).spec = (m.column c).spec
  row : ∀ {r row'}, r.index < m.rows.size → m'.row? r = some row' →
    ∃ row, m.row? r = some row ∧ row'.spec = row.spec
  live : ∀ {r}, r ∉ gone → (m.row? r).isSome = true → (m'.row? r).isSome = true

instance : IsPreorder ConstraintMatrix (SameSpecs gone) where
  refl m := ⟨Nat.le_refl _, Nat.le_refl _, fun _ => rfl, fun _ => rfl,
    fun {_ row} _ h => ⟨row, h, rfl⟩, fun _ => id⟩
  trans m t m' h h' := {
    nrColumns := h.nrColumns.trans h'.nrColumns
    nrRows := h.nrRows.trans h'.nrRows
    origin := fun hc => (h'.origin (hc.trans_le h.nrColumns)).trans (h.origin hc)
    column := fun hc => (h'.column (hc.trans_le h.nrColumns)).trans (h.column hc)
    row := fun hr hrow' => by
      obtain ⟨row, hrow, hspec⟩ := h'.row (hr.trans_le h.nrRows) hrow'
      obtain ⟨row₀, hrow₀, hspec₀⟩ := h.row hr hrow
      exact ⟨row₀, hrow₀, hspec.trans hspec₀⟩
    live := fun hr hlive => h'.live hr (h.live hr hlive) }

theorem SameSpecs.mono (h : SameSpecs gone m m') (hgone : gone ⊆ gone') : SameSpecs gone' m m' :=
  ⟨h.nrColumns, h.nrRows, h.origin, h.column, h.row, fun hr => h.live fun hmem => hr (hgone hmem)⟩

theorem Keeps.sameSpecs (h : Keeps scope m m') : SameSpecs scope.gone m m' where
  nrColumns := h.size.ge
  nrRows := h.nrRows.ge
  origin _ := congrArg (·.1) (h.column _)
  column _ := congrArg (·.2.1) (h.column _)
  row _ hrow' := by
    obtain ⟨row, hrow, htold, -⟩ := h.row hrow'
    exact ⟨row, hrow, congrArg (·.1) htold⟩
  live := h.live

/-- The rows that exist. -/
def live (m : ConstraintMatrix) : Set RowRef := {r | (m.row? r).isSome = true}

theorem mem_live (h : m.row? r = some row) : r ∈ m.live := congrArg Option.isSome h

theorem index_lt_of_mem_live (h : r ∈ m.live) : r.index < m.rows.size := by
  by_contra hle
  have hnone := row?_of_size_le (Nat.not_lt.mp hle)
  exact nomatch (congrArg Option.isSome hnone).symm.trans h

theorem SameSpecs.live_subset (h : SameSpecs ∅ m m') : m.live ⊆ m'.live :=
  fun _ hr => h.live (Set.notMem_empty _) hr

/-- A row that is not gone still says what it said. -/
theorem SameSpecs.exists_row (h : SameSpecs gone m m') (hr : r ∉ gone) (hrow : m.row? r = some row) :
    ∃ row', m'.row? r = some row' ∧ row'.spec = row.spec := by
  have hlive := mem_live hrow
  obtain ⟨row', hrow'⟩ := Option.isSome_iff_exists.mp (h.live hr hlive)
  obtain ⟨row₀, hrow₀, hspec⟩ := h.row (index_lt_of_mem_live hlive) hrow'
  obtain rfl := Option.some.inj (hrow₀.symm.trans hrow)
  exact ⟨row', hrow', hspec⟩

/-- What the solver was told is not said by a line. -/
theorem SameBut.sameSpecs (h : SameBut .contact m m') : SameSpecs gone m m' where
  nrColumns := h.size_columns.ge
  nrRows := h.size_rows.ge
  origin _ := Forgetting.column_congr Column.origin (h.column_eq _) fun _ => rfl
  column _ := Forgetting.column_congr Column.spec (h.column_eq _) fun _ => rfl
  row {_ row'} _ hrow' := by
    obtain ⟨row, hrow, hsame⟩ := Option.map_eq_some_iff.mp ((h.row?_eq _).symm.trans
      (congrArg (Option.map Forgetting.contact.row) hrow'))
    exact ⟨row, hrow, (Forgetting.row_congr Row.spec hsame fun _ => rfl).symm⟩
  live _ hlive := by
    obtain ⟨row, hrow⟩ := Option.isSome_iff_exists.mp hlive
    obtain ⟨row', hrow', -⟩ := h.exists_row hrow
    rw [hrow', Option.isSome_some]

/-- A change of a row that leaves alone what it says. -/
theorem sameSpecs_modifyRow (m : ConstraintMatrix) (r : RowRef) {f : Row → Row}
    (hspec : ∀ row, (f row).spec = row.spec) : SameSpecs gone m (m.modifyRow r f) := by
  refine ⟨Nat.le_refl _, Array.size_modify.ge, fun _ => rfl, fun _ => rfl, fun {s row'} _ h => ?_,
    fun _ h => (isSome_row?_modifyRow m r _ f).trans h⟩
  rw [row?_modifyRow] at h
  split at h
  · obtain ⟨row, hrow, rfl⟩ := Option.map_eq_some_iff.mp h
    exact ⟨row, hrow, hspec row⟩
  · exact ⟨row', h, rfl⟩

/-- Values of a solution are neither said by a line nor told to the solver. -/
theorem keeps_of_without (h : m'.without .values = m.without .values) : Keeps scope m m' := by
  have hcolumn {β : Type} (g : Column → β) (hg : ∀ c, g (Forgetting.values.column c) = g c)
      (c : ColumnRef) : g (m'.column c) = g (m.column c) :=
    Forgetting.column_congr g (column_eq_of_without h c) hg
  have hrow {r : RowRef} {row' : Row} (hrow' : m'.row? r = some row') :
      ∃ row, m.row? r = some row ∧ row'.told = row.told ∧
        row'.coefficientChanged = row.coefficientChanged := by
    obtain ⟨row, hrow, heq⟩ := row_eq_of_without h.symm hrow'
    exact ⟨row, hrow, (Forgetting.row_congr Row.told heq fun _ => rfl).symm,
      (Forgetting.row_congr Row.coefficientChanged heq fun _ => rfl).symm⟩
  have hmark := hcolumn Column.coefficientChanged fun _ => rfl
  have hsynced : m'.synced = m.synced := congrArg (·.synced) h
  have hfirstColumn : m'.firstChangedColumn = m.firstChangedColumn :=
    congrArg (·.firstChangedColumn) h
  have hfirstRow : m'.firstChangedRow = m.firstChangedRow := congrArg (·.firstChangedRow) h
  exact {
    size := size_columns_eq_of_without h
    nrRows := size_rows_eq_of_without h
    column := hcolumn Column.told fun _ => rfl
    row := fun hrow' => by
      obtain ⟨row, hrow, htold, hmark⟩ := hrow hrow'
      exact ⟨row, hrow, htold, hmark.trans⟩
    live := fun _ hlive => by
      obtain ⟨row, hrow⟩ := Option.isSome_iff_exists.mp hlive
      obtain ⟨row', hrow', -⟩ := row_eq_of_without h hrow
      rw [hrow', Option.isSome_some]
    columnChanged := fun {c} => (hmark c).trans
    marks := .inr ⟨fun {c} => (hmark c).symm.trans, fun hrow' hmarked => by
      obtain ⟨row, hrow, -, hmark⟩ := hrow hrow'
      exact ⟨row, hrow, hmark.symm.trans hmarked⟩⟩
    solverColumns := congrArg (·.solverColumns) h
    solverRows := congrArg (·.solverRows) h
    firstChangedColumn := hfirstColumn.le
    firstChangedRow := hfirstRow.le
    synced := hsynced.symm.trans
    unchanged := fun _ => ⟨hfirstColumn, hfirstRow⟩
    watched := fun hwatched => hwatched.of_lines hsynced.symm.trans hfirstColumn.le hfirstRow.le
      (fun {c} hmarked => ⟨(hmark c).symm.trans hmarked,
        hcolumn Column.solverPosition (fun _ => rfl) c⟩)
      fun hrow' hmarked => by
        obtain ⟨row, hrow, htold, hmark⟩ := hrow hrow'
        exact ⟨row, hrow, hmark.symm.trans hmarked, congrArg (·.2.2) htold⟩ }

end ConstraintMatrix

namespace Relaxation

open ConstraintMatrix (Keeps SameSpecs)

variable {σ : Type} [Solver σ] {S : σ → σ → Prop} {lp t : Relaxation σ} {α : Type}
variable {scope : Scope} {gone : Set RowRef}

/-- The active lines are the same, and lines say the same. -/
structure SameLines (lp t : Relaxation σ) : Prop where
  matrix : SameSpecs Set.univ lp.matrix t.matrix
  columns : t.columns = lp.columns
  rows : t.rows = lp.rows

/-- Nothing differs but the coefficients, what the solver was told, and what is known about the
solution. There may be new rows. -/
structure Intact (lp t : Relaxation σ) : Prop where
  matrix : SameSpecs ∅ lp.matrix t.matrix
  nrColumns : t.matrix.columns.size = lp.matrix.columns.size
  columns : t.columns = lp.columns
  rows : t.rows = lp.rows
  settings : t.settings = lp.settings
  pseudo : t.pseudo = lp.pseudo
  loose : t.loose = lp.loose
  dive : t.dive = lp.dive

/-- Nothing differs but the coefficients, marks on lines, and what is known about the solution. Some
rows may be gone. -/
structure Steady (S : σ → σ → Prop) (scope : Scope) (lp t : Relaxation σ) : Prop where
  matrix : Keeps scope lp.matrix t.matrix
  solver : S lp.solver t.solver
  settings : t.settings = lp.settings
  columns : t.columns = lp.columns
  rows : t.rows = lp.rows
  changedColumns : t.changedColumns = lp.changedColumns
  changedRows : t.changedRows = lp.changedRows
  pseudo : t.pseudo = lp.pseudo
  loose : t.loose = lp.loose
  dive : t.dive = lp.dive

instance : IsPreorder (Relaxation σ) SameLines where
  refl _ := ⟨refl _, rfl, rfl⟩
  trans _ _ _ h h' := ⟨IsTrans.trans _ _ _ h.matrix h'.matrix, h'.columns.trans h.columns,
    h'.rows.trans h.rows⟩

instance : IsPreorder (Relaxation σ) Intact where
  refl _ := ⟨refl _, rfl, rfl, rfl, rfl, rfl, rfl, rfl⟩
  trans _ _ _ h h' := ⟨IsTrans.trans _ _ _ h.matrix h'.matrix, h'.nrColumns.trans h.nrColumns,
    h'.columns.trans h.columns, h'.rows.trans h.rows, h'.settings.trans h.settings,
    h'.pseudo.trans h.pseudo, h'.loose.trans h.loose, h'.dive.trans h.dive⟩

theorem Intact.sameLines (h : Intact lp t) : SameLines lp t :=
  ⟨h.matrix.mono (Set.empty_subset _), h.columns, h.rows⟩

theorem Steady.intact (h : Steady S (.edits ∅) lp t) : Intact lp t :=
  ⟨h.matrix.sameSpecs, h.matrix.size, h.columns, h.rows, h.settings, h.pseudo, h.loose, h.dive⟩

theorem Unedited.steady (h : Unedited S lp t) : Steady S scope lp t :=
  ⟨ConstraintMatrix.keeps_of_without h.matrix, h.solver, h.settings, h.columns, h.rows,
    h.changedColumns, h.changedRows, h.pseudo, h.loose, h.dive⟩

theorem steady_of_unedited {x : RelaxationM σ α} (h : Along (Unedited S) x) :
    Along (Steady S scope) x :=
  h.mono fun _ _ => Unedited.steady

variable [IsPreorder σ S]

instance : IsPreorder (Relaxation σ) (Steady S scope) where
  refl _ := ⟨refl _, refl _, rfl, rfl, rfl, rfl, rfl, rfl, rfl, rfl⟩
  trans _ _ _ h h' := ⟨IsTrans.trans _ _ _ h.matrix h'.matrix,
    IsTrans.trans _ _ _ h.solver h'.solver, h'.settings.trans h.settings,
    h'.columns.trans h.columns, h'.rows.trans h.rows, h'.changedColumns.trans h.changedColumns,
    h'.changedRows.trans h.changedRows, h'.pseudo.trans h.pseudo, h'.loose.trans h.loose,
    h'.dive.trans h.dive⟩

/-! ## Steady operations -/

theorem steady_matrix {m : ConstraintMatrix} (h : Keeps scope lp.matrix m) :
    Steady S scope lp { lp with matrix := m } :=
  ⟨h, refl _, rfl, rfl, rfl, rfl, rfl, rfl, rfl, rfl⟩

theorem steady_onMatrix {x : MatrixM α} (h : Along (Keeps scope) x) :
    Along (Steady S scope) (onMatrix x : RelaxationM σ α) := fun lp =>
  ends_onMatrix.mpr ((h lp.matrix).mono (fun _ _ => steady_matrix) fun _ _ => steady_matrix)

theorem steady_updateRow (r : RowRef) {f : Row → Row} (htold : ∀ row, (f row).told = row.told)
    (hmark : ∀ row, (f row).coefficientChanged = row.coefficientChanged) :
    Along (Steady S scope) (updateRow r f : RelaxationM σ Unit) :=
  steady_onMatrix (ConstraintMatrix.along_updateRow r htold hmark)

theorem steady_captureRow (r : RowRef) :
    Along (Steady S scope) (captureRow r : RelaxationM σ Unit) :=
  steady_updateRow r (fun _ => rfl) fun _ => rfl

theorem steady_lockRow (r : RowRef) : Along (Steady S scope) (lockRow r : RelaxationM σ Unit) :=
  steady_updateRow r (fun _ => rfl) fun _ => rfl

theorem steady_unlockRow (r : RowRef) : Along (Steady S scope) (unlockRow r : RelaxationM σ Unit) :=
  .bind (along_getRow r) fun _ =>
    .ite .throw_bind (steady_updateRow r (fun _ => rfl) fun _ => rfl)

theorem steady_coefficient (c : ColumnRef) (r : RowRef) :
    Along (Steady S scope) (coefficient c r : RelaxationM σ Extended) :=
  steady_onMatrix (ConstraintMatrix.blindToEntries_keeps.coefficient c r)

theorem steady_edit (c : ColumnRef) (r : RowRef) (e : Edit) :
    Along (Steady S (.edits gone)) (edit c r e : RelaxationM σ Unit) := by
  have hedit : Along (Keeps (.edits gone)) (ConstraintMatrix.edit c r e) := by
    cases e with
    | addInColumn v => exact ConstraintMatrix.blindToEdits_keeps.addInColumn c r v
    | addInRow v => exact ConstraintMatrix.blindToEdits_keeps.addInRow r c v
    | change v => exact ConstraintMatrix.blindToEdits_keeps.change c r v
    | increase v => exact ConstraintMatrix.blindToEdits_keeps.increase r c v
    | delete => exact ConstraintMatrix.blindToEdits_keeps.delete c r
  rw [edit_eq]
  exact .bind (steady_onMatrix hedit) fun _ => steady_of_unedited (unedited_coefficientEdited c r)

theorem steady_delayOrder (r : RowRef) : Along (Steady S scope) (delayOrder r : RelaxationM σ Unit) :=
  steady_onMatrix (ConstraintMatrix.along_delayOrder r)

theorem steady_forceOrder (r : RowRef) : Along (Steady S scope) (forceOrder r : RelaxationM σ Unit) :=
  steady_onMatrix (ConstraintMatrix.along_forceOrder r)

theorem steady_addCoefficientsInRow (r : RowRef) (coefficients : List (ColumnRef × Extended)) :
    Along (Steady S (.edits gone)) (addCoefficientsInRow r coefficients : RelaxationM σ Unit) := by
  have hstore (x : ColumnRef × Extended) :
      Along (Steady S (.edits gone)) (addCoefficientInRow r x.1 x.2 : RelaxationM σ Unit) :=
    steady_edit x.1 r (.addInRow x.2)
  refine .bind (along_getRow r) fun row => ?_
  refine .when (steady_delayOrder r) (.bind (.forIn (fun x _ => ?_) _) fun _ => ?_)
  · exact .bind (hstore x) fun _ => .pure
  · exact .ite (steady_forceOrder r) .pure

/-! ## Operations that bring the solver up to date -/

/-- Nothing is said about the solver. -/
def Whatever (_ _ : σ) : Prop := True

instance : IsPreorder σ Whatever where
  refl _ := trivial
  trans _ _ _ _ _ := trivial

omit [Solver σ] in
theorem along_whatever {x : SolverM σ α} : Along Whatever x := fun s =>
  (Ends.self x s).mono (fun _ _ _ => trivial) fun _ _ _ => trivial

theorem respects_whatever : Solver.Respects (Whatever (σ := σ)) where
  setBasis _ := along_whatever
  setInt _ _ := along_whatever
  setReal _ _ := along_whatever
  solvePrimal := along_whatever
  solveDual := along_whatever
  restore _ := along_whatever

theorem updates_whatever : Solver.Updates (Whatever (σ := σ)) where
  addColumns _ := along_whatever
  addRows _ := along_whatever
  deleteColumns _ _ := along_whatever
  deleteRows _ _ := along_whatever
  changeObjective _ _ := along_whatever
  changeBounds _ _ _ := along_whatever
  changeSides _ _ _ := along_whatever

omit [IsPreorder σ S] in
theorem intact_of_steady {x : RelaxationM σ α} (h : Along (Steady S (.edits ∅)) x) : Along Intact x :=
  h.mono fun _ _ => Steady.intact

theorem intact_of_unedited {x : RelaxationM σ α} (h : Along (Unedited Whatever) x) :
    Along Intact x := intact_of_steady (steady_of_unedited h)

theorem intact_onSolver (x : SolverM σ α) : Along Intact (onSolver x) :=
  intact_of_unedited (unedited_onSolver along_whatever)

theorem intact_markUnsolved : Along Intact (markUnsolved : RelaxationM σ Unit) :=
  intact_of_unedited unedited_markUnsolved

theorem intact_matrix {m : ConstraintMatrix} (h : SameSpecs ∅ lp.matrix m)
    (hsize : m.columns.size = lp.matrix.columns.size) : Intact lp { lp with matrix := m } :=
  ⟨h, hsize, rfl, rfl, rfl, rfl, rfl, rfl⟩

theorem intact_updateRow (r : RowRef) {f : Row → Row} (hspec : ∀ row, (f row).spec = row.spec) :
    Along Intact (updateRow r f : RelaxationM σ Unit) := fun lp => by
  rw [updateRow, ends_onMatrix, ConstraintMatrix.ends_updateRow_iff]
  exact ⟨fun _ => intact_matrix (ConstraintMatrix.sameSpecs_modifyRow lp.matrix r hspec) rfl,
    fun _ => refl lp⟩

omit [IsPreorder σ S] in
theorem Informed.intact (h : Informed S lp t) : Intact lp t :=
  ⟨h.matrix.sameSpecs, h.matrix.size_columns, h.columns, h.rows, h.settings, h.pseudo, h.loose, h.dive⟩

/-- What the solver is told changes nothing of what the lines say. -/
theorem intact_sync : Along Intact (sync : RelaxationM σ Unit) :=
  (informed_sync updates_whatever).mono fun _ _ => Informed.intact

theorem intact_solveAnd (write : Bool) (a : Approximation) :
    Along Intact (solveAnd write a : RelaxationM σ (SolveResult × Approximation)) := by
  rw [solveAnd_eq]
  exact .bind intact_sync fun _ => intact_of_unedited (unedited_solveSynced respects_whatever write a)

theorem intact_solve (a : Approximation) :
    Along Intact (solve a : RelaxationM σ (SolveResult × Approximation)) :=
  .get fun _ => intact_solveAnd _ a

/-! ## New lines -/

theorem sameSpecs_pushColumn (m : ConstraintMatrix) (column : Column) :
    SameSpecs gone m (m.pushColumn column).1 := by
  have hcolumn {c : ColumnRef} (hc : c.index < m.columns.size) :
      (m.pushColumn column).1.column c = m.column c := by
    simp only [ConstraintMatrix.column, ConstraintMatrix.pushColumn, Array.getD_eq_getD_getElem?,
      Array.getElem?_push_lt hc, Array.getElem?_eq_getElem hc]
  refine ⟨by simp [ConstraintMatrix.pushColumn], Nat.le_refl _, fun hc => by rw [hcolumn hc],
    fun hc => by rw [hcolumn hc], fun {_ row} _ h => ⟨row, h, rfl⟩, fun _ => id⟩

theorem sameSpecs_pushRow (m : ConstraintMatrix) (row : Row) :
    SameSpecs gone m (m.pushRow row).1 := by
  have hrow {r : RowRef} (hr : r.index < m.rows.size) :
      (m.pushRow row).1.row? r = m.row? r := by
    simp only [ConstraintMatrix.row?, ConstraintMatrix.pushRow, Array.getElem?_push_lt hr,
      Array.getElem?_eq_getElem hr]
  refine ⟨Nat.le_refl _, by simp [ConstraintMatrix.pushRow], fun _ => rfl, fun _ => rfl,
    fun {r row'} hr h => ⟨row', (hrow hr).symm.trans h, rfl⟩, fun {r} _ hlive => ?_⟩
  have hr : r.index < m.rows.size := by
    by_contra hle
    rw [ConstraintMatrix.row?_of_size_le (Nat.not_lt.mp hle)] at hlive
    cases hlive
  rwa [hrow hr]

theorem intact_createRow (name : String) (spec : RowSpec) :
    Along Intact (createRow name spec : RelaxationM σ RowRef) := fun lp => by
  rw [ends_createRow_iff]
  exact ⟨fun _ => refl lp, fun _ => intact_matrix (sameSpecs_pushRow lp.matrix _) rfl⟩

end Relaxation

end CertifiedLp
