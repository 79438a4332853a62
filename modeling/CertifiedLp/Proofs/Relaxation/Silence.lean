import Mathlib
import CertifiedLp.Proofs.Relaxation.Watching
import CertifiedLp.Proofs.Relaxation.Entering

/-!
# Silent operations

Edits and moves do not bring the solver up to date. They are *silent*: of the lines that the solver has
they keep what was sent, and they remove no mark. Only edits of coefficients mark lines.
-/

namespace CertifiedLp

namespace ConstraintMatrix

variable {m m' : ConstraintMatrix} {r : RowRef} {row : Row} {marks : Prop} {scope : Scope}

/-- Of the lines that the solver has, the same was sent, and no mark was removed. The solver has no
other lines. Lines may have been marked. -/
structure KeepsSent (marks : Prop) (m m' : ConstraintMatrix) : Prop where
  column : ∀ {c}, (m'.column c).solverPosition.isSome = true →
    (m'.column c).solverPosition = (m.column c).solverPosition ∧
      (m'.column c).sent = (m.column c).sent ∧
      ((m.column c).coefficientChanged = true → (m'.column c).coefficientChanged = true)
  row : ∀ {r row'}, m'.row? r = some row' → row'.solverPosition.isSome = true →
    ∃ row, m.row? r = some row ∧ row'.solverPosition = row.solverPosition ∧ row'.sent = row.sent ∧
      (row.coefficientChanged = true → row'.coefficientChanged = true)
  solverColumns : m'.solverColumns = m.solverColumns
  solverRows : m'.solverRows = m.solverRows
  marks : marks ∨ MarksNothing m m'

instance : IsPreorder ConstraintMatrix (KeepsSent marks) where
  refl m := ⟨fun _ => ⟨rfl, rfl, id⟩, fun {_ row} h _ => ⟨row, h, rfl, rfl, id⟩, rfl, rfl,
    .inr (refl m)⟩
  trans m t m' h h' := {
    column := fun hsome => by
      obtain ⟨hposition', hsent', hmark'⟩ := h'.column hsome
      obtain ⟨hposition, hsent, hmark⟩ := h.column (hposition' ▸ hsome)
      exact ⟨hposition'.trans hposition, hsent'.trans hsent, hmark' ∘ hmark⟩
    row := fun hrow' hsome => by
      obtain ⟨row, hrow, hposition', hsent', hmark'⟩ := h'.row hrow' hsome
      obtain ⟨row₀, hrow₀, hposition, hsent, hmark⟩ := h.row hrow (hposition' ▸ hsome)
      exact ⟨row₀, hrow₀, hposition'.trans hposition, hsent'.trans hsent, hmark' ∘ hmark⟩
    solverColumns := h'.solverColumns.trans h.solverColumns
    solverRows := h'.solverRows.trans h.solverRows
    marks := marksNothing_trans h.marks h'.marks }

theorem Keeps.keepsSent (h : Keeps scope m m') : KeepsSent scope.marks m m' where
  column {c} _ := by
    obtain ⟨-, -, hsent, hposition⟩ : _ ∧ _ ∧ _ ∧ _ := by
      simpa only [Column.told, Prod.mk.injEq] using h.column c
    exact ⟨hposition, hsent, h.columnChanged⟩
  row hrow' _ := by
    obtain ⟨row, hrow, htold, hmark⟩ := h.row hrow'
    obtain ⟨-, hsent, hposition⟩ : _ ∧ _ ∧ _ := by
      simpa only [Row.told, Prod.mk.injEq] using htold
    exact ⟨row, hrow, hposition, hsent, hmark⟩
  solverColumns := h.solverColumns
  solverRows := h.solverRows
  marks := h.marks

/-- The solver does not have a new column. -/
theorem keepsSent_pushColumn (m : ConstraintMatrix) {column : Column}
    (hnone : column.solverPosition = none) (hmark : column.coefficientChanged = false) :
    KeepsSent marks m (m.pushColumn column).1 := by
  refine ⟨fun {c} hsome => ?_, fun {_ row} h _ => ⟨row, h, rfl, rfl, id⟩, rfl, rfl,
    .inr ⟨fun {c} hmarked => ?_, fun {_ row} h hmarked => ⟨row, h, hmarked⟩⟩⟩
  · rw [column_pushColumn] at hsome ⊢
    split at hsome
    · rw [hnone] at hsome
      cases hsome
    · next hne =>
      rw [if_neg hne]
      exact ⟨rfl, rfl, id⟩
  · rw [column_pushColumn] at hmarked
    split at hmarked
    · exact nomatch hmark.symm.trans hmarked
    · exact hmarked

/-- The solver does not have a new row. -/
theorem keepsSent_pushRow (m : ConstraintMatrix) {row : Row} (hnone : row.solverPosition = none)
    (hmark : row.coefficientChanged = false) : KeepsSent marks m (m.pushRow row).1 := by
  refine ⟨fun _ => ⟨rfl, rfl, id⟩, fun {r row'} hrow' hsome => ?_, rfl, rfl,
    .inr ⟨id, fun {r row'} hrow' hmarked => ?_⟩⟩
  · rw [row?_pushRow] at hrow'
    split at hrow'
    · obtain rfl := Option.some.inj hrow'
      rw [hnone] at hsome
      cases hsome
    · exact ⟨row', hrow', rfl, rfl, id⟩
  · rw [row?_pushRow] at hrow'
    split at hrow'
    · obtain rfl := Option.some.inj hrow'
      exact nomatch hmark.symm.trans hmarked
    · exact ⟨row', hrow', hmarked⟩

/-- A column says something else. -/
theorem keepsSent_respecify (m : ConstraintMatrix) (c : ColumnRef) (spec : ColumnSpec) (b : Bool) :
    KeepsSent marks m { m.modifyColumn c ({ · with spec }) with synced := b } := by
  have hcolumn {β : Type} (g : Column → β) (hg : ∀ column : Column, g { column with spec } = g column)
      (d : ColumnRef) : g ((m.modifyColumn c ({ · with spec })).column d) = g (m.column d) :=
    column_modifyColumn_congr g m c hg d
  have hmark := hcolumn Column.coefficientChanged fun _ => rfl
  exact ⟨fun {d} _ => ⟨hcolumn Column.solverPosition (fun _ => rfl) d,
    hcolumn Column.sent (fun _ => rfl) d, (hmark d).trans⟩,
    fun {_ row} h _ => ⟨row, h, rfl, rfl, id⟩, rfl, rfl,
    .inr ⟨fun {d} => (hmark d).symm.trans, fun {_ row} h hmarked => ⟨row, h, hmarked⟩⟩⟩

/-- A row says something else. -/
theorem keepsSent_rowRespecify {f : Row → Row} {spec : RowSpec} (hrow : m.row? r = some row)
    (hf : Relaxation.Restates f row spec) (b : Bool) :
    KeepsSent marks m { m.modifyRow r f with synced := b } := by
  refine ⟨fun _ => ⟨rfl, rfl, id⟩, fun h _ => ?_, rfl, rfl, .inr ⟨id, fun h hmarked => ?_⟩⟩
  · obtain ⟨row₀, hrow₀, hposition, hsent, hmark⟩ := exists_row_restated hrow hf h
    exact ⟨row₀, hrow₀, hposition, hsent, hmark.trans⟩
  · obtain ⟨row₀, hrow₀, -, -, hmark⟩ := exists_row_restated hrow hf h
    exact ⟨row₀, hrow₀, hmark.symm.trans hmarked⟩

end ConstraintMatrix

namespace Relaxation

open ConstraintMatrix (KeepsSent)

variable {σ : Type} [Solver σ] {S : σ → σ → Prop} {marks : Prop} {scope : Scope}
variable {lp t u : Relaxation σ} {c : ColumnRef} {r : RowRef} {row : Row} {a : Action} {α : Type}

/-! ## Silent operations -/

/-- The solver holds the same and was told the same. -/
structure Silent (S : σ → σ → Prop) (marks : Prop) (lp t : Relaxation σ) : Prop where
  matrix : KeepsSent marks lp.matrix t.matrix
  solver : S lp.solver t.solver

/-- Where lines may be marked, it does not matter whether they were. -/
theorem Silent.of_marks {p : Prop} (h : Silent S p lp t) (hmarks : marks) : Silent S marks lp t :=
  ⟨{ h.matrix with marks := .inl hmarks }, h.solver⟩

/-- The lists of active lines do not matter, neither does what is summed up of them. -/
theorem Steady.silent (h : Steady S scope u t) (hmatrix : u.matrix = lp.matrix)
    (hsolver : u.solver = lp.solver) : Silent S scope.marks lp t :=
  ⟨hmatrix ▸ h.matrix.keepsSent, hsolver ▸ h.solver⟩

theorem RowsSteady.silent (h : RowsSteady S scope lp t) : Silent S scope.marks lp t := by
  obtain ⟨rows, h⟩ := h
  exact ⟨h.matrix.keepsSent, h.solver⟩

theorem silent_onSolver {x : SolverM σ α} (h : Along S x) :
    Along (Silent S marks) (onSolver x) := fun _ =>
  ends_onSolver.mpr ((h _).mono (fun _ _ hs => ⟨refl _, hs⟩) fun _ _ hs => ⟨refl _, hs⟩)

variable [IsPreorder σ S]

instance : IsPreorder (Relaxation σ) (Silent S marks) where
  refl _ := ⟨refl _, refl _⟩
  trans _ _ _ h h' := ⟨IsTrans.trans _ _ _ h.matrix h'.matrix, IsTrans.trans _ _ _ h.solver h'.solver⟩

theorem silent_of_eq (h : t = lp) : Silent S marks lp t := by
  rw [h]
  exact refl lp

theorem Respecified.silent {spec : ColumnSpec} (h : Respecified c spec lp t) : Silent S marks lp t := by
  obtain ⟨b, hmatrix⟩ := h.matrix
  refine ⟨?_, h.solver ▸ refl _⟩
  rw [hmatrix]
  exact ConstraintMatrix.keepsSent_respecify _ c spec b

theorem RowRespecified.silent {spec : RowSpec} (hrow : lp.matrix.row? r = some row)
    (h : RowRespecified r row spec lp t) : Silent S marks lp t := by
  obtain ⟨f, b, hmatrix, hf⟩ := h.matrix
  refine ⟨?_, h.solver ▸ refl _⟩
  rw [hmatrix]
  exact ConstraintMatrix.keepsSent_rowRespecify hrow hf b

/-- What concerns neither the matrix nor the solver. -/
theorem silent_modify {f : Relaxation σ → Relaxation σ}
    (h : ∀ lp, (f lp).matrix = lp.matrix ∧ (f lp).solver = lp.solver) :
    Along (Silent S marks) (modify f : RelaxationM σ PUnit) := .modify fun lp => by
  obtain ⟨hmatrix, hsolver⟩ := h lp
  refine ⟨?_, ?_⟩
  · rw [hmatrix]
    exact refl _
  · rw [hsolver]
    exact refl _

theorem silent_setSettings (hS : ∀ parameter value, Along S (Solver.setInt parameter value))
    (settings : Settings) : Along (Silent S marks) (setSettings settings : RelaxationM σ Unit) :=
  .bind (silent_onSolver (hS _ _)) fun _ => .bind (silent_onSolver (hS _ _)) fun _ =>
    silent_modify fun _ => ⟨rfl, rfl⟩

theorem silent_createColumn (problem : Problem) (x : VariableRef) :
    Along (Silent S marks) (createColumn problem x : RelaxationM σ (Problem × ColumnRef)) :=
  fun lp => ends_createColumn_iff.mpr ⟨fun _ => refl lp, fun _ => ⟨fun _ => refl lp, fun _ =>
    ⟨ConstraintMatrix.keepsSent_pushColumn lp.matrix rfl rfl, refl lp.solver⟩⟩⟩

theorem silent_createRow (name : String) (spec : RowSpec) :
    Along (Silent S marks) (createRow name spec : RelaxationM σ RowRef) := fun lp =>
  ends_createRow_iff.mpr ⟨fun _ => refl lp, fun _ =>
    ⟨ConstraintMatrix.keepsSent_pushRow lp.matrix rfl rfl, refl lp.solver⟩⟩

theorem admitsChanges_silent :
    AdmitsChanges (Silent S marks : Relaxation σ → Relaxation σ → Prop) where
  respecified h := h.silent
  rowRespecified hrow h := h.silent hrow

theorem Coherent.ends_shrinkColumns_silent (hlp : lp.Coherent) (size : Nat) :
    Ends (shrinkColumns size) lp (fun _ t => t.Coherent ∧ Silent S marks lp t) fun _ _ => False :=
  ((ends_shrinkColumns hlp size).and (ends_shrinkColumns_steady ⟨∅, marks⟩ size)).mono
    (fun _ _ h => ⟨h.1.coherent, h.2.silent rfl rfl⟩) fun _ _ h => h.1

/-- An action that does not bring the solver up to date is silent. Only edits mark lines. -/
theorem Coherent.ends_silent (hlp : lp.Coherent) (ha : lp.Permits a) (hsync : a.isSync = false)
    (hedit : a.isEdit = true → marks) (hS : a.isConfiguration = true →
      ∀ parameter value, Along S (Solver.setInt parameter value)) :
    Ends (Relaxation.perform a) lp (fun _ t => Silent S marks lp t) fun _ t => Silent S marks lp t := by
  have hrows {x : RelaxationM σ Unit} (hx : Along (RowsSteady S ⟨Set.univ, marks⟩) x) :
      Ends x lp (fun _ t => Silent S marks lp t) fun _ t => Silent S marks lp t :=
    (hx lp).mono (fun _ _ h => h.silent) fun _ _ h => h.silent
  have hsteady {x : RelaxationM σ Unit} (hx : Along (Steady S ⟨Set.univ, marks⟩) x) :
      Ends x lp (fun _ t => Silent S marks lp t) fun _ t => Silent S marks lp t :=
    hrows (rowsSteady_of_steady hx)
  have hunedited {x : RelaxationM σ Unit} (hx : Along (Unedited S) x) :
      Ends x lp (fun _ t => Silent S marks lp t) fun _ t => Silent S marks lp t :=
    hsteady (steady_of_unedited hx)
  have hedited {x : RelaxationM σ Unit} (hmarks : marks)
      (hx : Along (Steady S (.edits ∅)) x) :
      Ends x lp (fun _ t => Silent S marks lp t) fun _ t => Silent S marks lp t :=
    (hx lp).mono (fun _ _ h => h.rowsSteady.silent.of_marks hmarks)
      fun _ _ h => h.rowsSteady.silent.of_marks hmarks
  cases a with
  | setSettings settings => exact silent_setSettings (hS rfl) settings lp
  | setCutoff cutoff => exact hunedited (unedited_setCutoff cutoff)
  | createColumn problem x => exact along_forgetful (silent_createColumn problem x) lp
  | createRow name spec => exact along_forgetful (silent_createRow name spec) lp
  | captureRow r => exact hsteady (steady_captureRow r)
  | releaseRow r => exact hsteady (steady_releaseRow (Set.mem_univ r))
  | lockRow r => exact hsteady (steady_lockRow r)
  | unlockRow r => exact hsteady (steady_unlockRow r)
  | addColumn c =>
    exact ((ends_addColumn hlp (ha c List.mem_cons_self)).and
      (ends_addColumn_steady ⟨∅, marks⟩ c)).mono (fun _ _ h => h.2.2.silent rfl rfl)
      fun _ _ h => silent_of_eq h.1
  | addRow r =>
    exact (ends_addRow_steady ⟨∅, marks⟩ r).mono (fun _ _ h => RowsSteady.silent ⟨_, h⟩)
      fun _ _ h => h.rowsSteady.silent
  | shrinkColumns size =>
    exact (hlp.ends_shrinkColumns_silent size).mono (fun _ _ h => h.2) fun _ _ h => h.elim
  | shrinkRows size => exact hrows (rowsSteady_shrinkRows marks size)
  | deleteRows mask => exact hrows (rowsSteady_deleteRows marks mask)
  | clear =>
    have hcolumns : Ends (shrinkColumns 0) lp (fun _ t => t.Coherent ∧ Silent S marks lp t)
      fun _ _ => False := hlp.ends_shrinkColumns_silent 0
    refine Ends.bind_iff.mpr (hcolumns.mono (fun _ t ht => ?_) fun _ _ h => h.elim)
    exact (rowsSteady_shrinkRows marks 0 t).mono (fun _ _ h => IsTrans.trans _ _ _ ht.2 h.silent)
      fun _ _ h => IsTrans.trans _ _ _ ht.2 h.silent
  | changeObjective c objective => exact admitsChanges_silent.changeObjective c objective lp
  | changeBound c side value => exact admitsChanges_silent.changeBound c side value lp
  | changeSide r side value => exact admitsChanges_silent.changeSide r side value lp
  | changeConstant r constant => exact admitsChanges_silent.changeConstant r constant lp
  | coefficient c r => exact hsteady (along_forgetful (steady_coefficient c r))
  | edit c r e => exact hedited (hedit rfl) (steady_edit c r e)
  | addCoefficientsInRow r coefficients =>
    exact hedited (hedit rfl) (steady_addCoefficientsInRow r coefficients)
  | delayOrder r => exact hsteady (steady_delayOrder r)
  | forceOrder r => exact hsteady (steady_forceOrder r)
  | sync => cases hsync
  | solve a => cases hsync
  | solveAnd write a => cases hsync
  | storeSolution => exact hunedited unedited_storeSolution
  | restoreSolution => exact hunedited unedited_restoreSolution
  | rowActivity r => exact hunedited (along_forgetful (unedited_rowActivity r))
  | rowFeasibility r => exact hunedited (along_forgetful (unedited_rowFeasibility r))
  | startDive store => cases hsync
  | setIterationLimit limit =>
    have hset : Along (Silent S marks) (setIterationLimit limit : RelaxationM σ Unit) :=
      silent_modify fun _ => ⟨rfl, rfl⟩
    exact hset lp
  | endDive problem => cases hsync

end Relaxation

end CertifiedLp
