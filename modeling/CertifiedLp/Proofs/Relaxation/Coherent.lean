import Mathlib
import CertifiedLp.Proofs.Matrix.Moving
import CertifiedLp.Proofs.Solver.Sizes

/-!
# Coherent relaxations

What every operation on a relaxation keeps: the matrix is sound, the lines know where they are, the
active lines are those in the solver below the first changes, and the solver has as many lines as
the matrix says. The last of these is true only of a solver that does what it is told completely or
not at all.

An operation *carries* a relaxation if it keeps all that, and the coefficients are related in a given
way. Most operations leave the coefficients of all rows that still exist undisturbed.
-/

namespace CertifiedLp

namespace Relaxation

open ConstraintMatrix (Sheds Undisturbed)

variable {σ : Type} [Solver σ] {lp lp' t : Relaxation σ} {α β : Type}
variable {R R' : ConstraintMatrix → ConstraintMatrix → Prop}

/-! ## Relations between the states of a relaxation -/

/-- No line was moved. -/
structure Unmoved (lp lp' : Relaxation σ) : Prop where
  stays : lp.matrix.Stays lp'.matrix
  columns : lp'.columns = lp.columns
  rows : lp'.rows = lp.rows
  counts : Solver.AllOrNothing σ → Solver.SameSize lp.solver lp'.solver

instance : IsPreorder (Relaxation σ) Unmoved where
  refl _ := ⟨.refl _, rfl, rfl, fun _ => refl _⟩
  trans _ _ _ h h' := ⟨h.stays.trans h'.stays, h'.columns.trans h.columns, h'.rows.trans h.rows,
    fun hs => IsTrans.trans _ _ _ (h.counts hs) (h'.counts hs)⟩

/-- No line was moved, and no coefficient touched. -/
structure Quiet (lp lp' : Relaxation σ) : Prop where
  unmoved : Unmoved lp lp'
  shape : lp'.matrix.shape = lp.matrix.shape

instance : IsPreorder (Relaxation σ) Quiet where
  refl lp := ⟨refl lp, rfl⟩
  trans _ _ _ h h' := ⟨IsTrans.trans _ _ _ h.unmoved h'.unmoved, h'.shape.trans h.shape⟩

/-- The matrix is sound, every line knows its places, the active lines are those in the solver
below the first changes, and the solver has the lines that it should have. -/
structure Coherent (lp : Relaxation σ) : Prop where
  sound : lp.matrix.Sound
  placed : Placed lp.matrix.places lp.columns lp.rows
  columnsAgree : AgreeBelow lp.matrix.firstChangedColumn lp.columns lp.matrix.solverColumns
  rowsAgree : AgreeBelow lp.matrix.firstChangedRow lp.rows lp.matrix.solverRows
  counts : Solver.AllOrNothing σ → Solver.nrColumns lp.solver = lp.matrix.solverColumns.size ∧
    Solver.nrRows lp.solver = lp.matrix.solverRows.size

/-- A relaxation is coherent, and its coefficients are related to those of another one. -/
structure Carried (R : ConstraintMatrix → ConstraintMatrix → Prop) (lp lp' : Relaxation σ) :
    Prop where
  coherent : lp'.Coherent
  matrix : R lp.matrix lp'.matrix

/-- A coherent relaxation remains coherent, and the coefficients are related to those before. -/
def Carries (R : ConstraintMatrix → ConstraintMatrix → Prop) (lp lp' : Relaxation σ) : Prop :=
  lp.Coherent → Carried R lp lp'

theorem Carried.mono (h : Carried R lp lp') (hR : ∀ m m', R m m' → R' m m') : Carried R' lp lp' :=
  ⟨h.coherent, hR _ _ h.matrix⟩

/-- Where nothing is disturbed, rows are shed at most. -/
theorem Carried.sheds (h : Carried Undisturbed lp lp') : Carried Sheds lp lp' :=
  h.mono fun _ _ => Undisturbed.sheds

section Preorder

variable [IsPreorder ConstraintMatrix R]

theorem Coherent.carried (h : lp.Coherent) : Carried R lp lp := ⟨h, refl _⟩

theorem Carried.trans (h : Carried R lp t) (h' : Carried R t lp') : Carried R lp lp' :=
  ⟨h'.coherent, IsTrans.trans _ _ _ h.matrix h'.matrix⟩

instance : IsPreorder (Relaxation σ) (Carries R) where
  refl _ h := h.carried
  trans _ _ _ h h' hlp := (h hlp).trans (h' (h hlp).coherent)

/-- After an operation that carried the relaxation, another one carries it on. -/
theorem Carried.ends {x : RelaxationM σ α} (h : Carried R lp t) (hx : Along (Carries R) x) :
    Ends x t (fun _ u => Carried R lp u) fun _ u => Carried R lp u :=
  (hx t).mono (fun _ _ hu => h.trans (hu h.coherent)) fun _ _ hu => h.trans (hu h.coherent)

end Preorder

theorem along_carries {x : RelaxationM σ α}
    (h : ∀ lp : Relaxation σ, lp.Coherent →
      Ends x lp (fun _ t => Carried R lp t) fun _ t => Carried R lp t) :
    Along (Carries R) x := by
  intro lp
  by_cases hlp : lp.Coherent
  · exact (h lp hlp).mono (fun _ _ ht _ => ht) fun _ _ ht _ => ht
  · exact (Ends.self x lp).mono (fun _ _ _ hcoherent => (hlp hcoherent).elim)
      fun _ _ _ hcoherent => (hlp hcoherent).elim

theorem Unmoved.coherent (h : Unmoved lp lp') (hlp : lp.Coherent) (hsound : lp'.matrix.Sound) :
    lp'.Coherent where
  sound := hsound
  placed := by
    rw [h.stays.places, h.columns, h.rows]
    exact hlp.placed
  columnsAgree := by
    rw [h.columns, h.stays.solverColumns]
    exact hlp.columnsAgree.mono h.stays.firstChangedColumn
  rowsAgree := by
    rw [h.rows, h.stays.solverRows]
    exact hlp.rowsAgree.mono h.stays.firstChangedRow
  counts hs := by
    rw [(h.counts hs).nrColumns, (h.counts hs).nrRows, h.stays.solverColumns, h.stays.solverRows]
    exact hlp.counts hs

theorem Unmoved.carries (h : Unmoved lp lp')
    (hrevised : lp.matrix.Revised lp'.matrix lp.matrix.amount) : Carries Undisturbed lp lp' :=
  fun hlp => ⟨h.coherent hlp hrevised.sound, hrevised.undisturbed⟩

theorem Quiet.carries (h : Quiet lp lp') : Carries Undisturbed lp lp' := fun hlp =>
  h.unmoved.carries (hlp.sound.revised.reshape h.shape h.unmoved.stays) hlp

theorem along_of_quiet {x : RelaxationM σ α} (h : Along Quiet x) : Along (Carries Undisturbed) x :=
  h.mono fun _ _ => Quiet.carries

theorem along_sheds {x : RelaxationM σ α} (h : Along (Carries Undisturbed) x) :
    Along (Carries Sheds) x := h.mono fun _ _ h hlp => (h hlp).sheds

/-! ## Quiet steps -/

/-- What leaves the matrix, the solver and the lists of active lines alone. -/
theorem quiet_of_eq (hmatrix : lp'.matrix = lp.matrix) (hsolver : lp'.solver = lp.solver)
    (hcolumns : lp'.columns = lp.columns) (hrows : lp'.rows = lp.rows) : Quiet lp lp' :=
  ⟨⟨hmatrix ▸ .refl _, hcolumns, hrows, fun _ => hsolver ▸ refl _⟩, by rw [hmatrix]⟩

theorem quiet_of_remarked {m : ConstraintMatrix} (h : ConstraintMatrix.Remarked lp.matrix m) :
    Quiet lp { lp with matrix := m } := ⟨⟨h.stays, rfl, rfl, fun _ => refl _⟩, h.shape⟩

theorem quiet_onMatrix {x : MatrixM α} (h : Along ConstraintMatrix.Remarked x) :
    Along Quiet (onMatrix x : RelaxationM σ α) := fun lp =>
  ends_onMatrix.mpr ((h lp.matrix).mono (fun _ _ => quiet_of_remarked)
    fun _ _ => quiet_of_remarked)

theorem quiet_onSolver {x : SolverM σ α} (h : Solver.AllOrNothing σ → Along Solver.SameSize x) :
    Along Quiet (onSolver x) := by
  intro lp
  rw [ends_onSolver]
  by_cases hs : Solver.AllOrNothing σ
  · exact (h hs lp.solver).mono (fun _ _ ht => ⟨⟨.refl _, rfl, rfl, fun _ => ht⟩, rfl⟩)
      fun _ _ ht => ⟨⟨.refl _, rfl, rfl, fun _ => ht⟩, rfl⟩
  · exact (Ends.self x lp.solver).mono
      (fun _ _ _ => ⟨⟨.refl _, rfl, rfl, fun h => (hs h).elim⟩, rfl⟩)
      fun _ _ _ => ⟨⟨.refl _, rfl, rfl, fun h => (hs h).elim⟩, rfl⟩

theorem quiet_modifyMatrix {f : ConstraintMatrix → ConstraintMatrix}
    (h : ∀ m, ConstraintMatrix.Remarked m (f m)) :
    Along Quiet (modifyMatrix f : RelaxationM σ Unit) :=
  fun lp => quiet_of_remarked (h lp.matrix)

/-- A change of a column that leaves its entries and its places alone. -/
theorem quiet_modifyColumn (c : ColumnRef) {f : Column → Column}
    (hshape : ∀ column, Forgetting.details.column (f column) = Forgetting.details.column column)
    (hplace : ∀ column,
      Forgetting.allButPlaces.column (f column) = Forgetting.allButPlaces.column column) :
    Along Quiet (modifyMatrix (·.modifyColumn c f) : RelaxationM σ Unit) :=
  quiet_modifyMatrix fun m => .modifyColumn m c hshape hplace

theorem quiet_modifyRow (r : RowRef) {f : Row → Row}
    (hshape : ∀ row, Forgetting.details.row (f row) = Forgetting.details.row row)
    (hplace : ∀ row, Forgetting.allButPlaces.row (f row) = Forgetting.allButPlaces.row row) :
    Along Quiet (modifyMatrix (·.modifyRow r f) : RelaxationM σ Unit) :=
  quiet_modifyMatrix fun m => .modifyRow m r hshape hplace

theorem quiet_updateRow (r : RowRef) {f : Row → Row}
    (hshape : ∀ row, Forgetting.details.row (f row) = Forgetting.details.row row)
    (hplace : ∀ row, Forgetting.allButPlaces.row (f row) = Forgetting.allButPlaces.row row) :
    Along Quiet (updateRow r f : RelaxationM σ Unit) :=
  quiet_onMatrix fun m => ConstraintMatrix.ends_updateRow_iff.mpr
    ⟨fun _ => .modifyRow m r hshape hplace, fun _ => refl m⟩

end Relaxation

end CertifiedLp
