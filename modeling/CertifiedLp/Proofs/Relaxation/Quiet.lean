import Mathlib
import CertifiedLp.Proofs.Relaxation.Coherent
import CertifiedLp.Proofs.Relaxation.Respecifying

/-!
# Quiet operations

The operations that move no line and touch no coefficient: those that edit nothing, and changes of
objective, bounds, sides and constants. All of them are composed of quiet steps.
-/

namespace CertifiedLp

namespace Relaxation

variable {σ : Type} [Solver σ] {lp t : Relaxation σ} {α : Type} {c : ColumnRef} {r : RowRef}

/-! ## Operations that edit nothing -/

/-- A solver that does what it is told completely or not at all has as many columns and rows. -/
def Resized (s s' : σ) : Prop := Solver.AllOrNothing σ → Solver.SameSize s s'

instance : IsPreorder σ Resized where
  refl s _ := refl s
  trans _ _ _ h h' hs := IsTrans.trans _ _ _ (h hs) (h' hs)

/-- A call that is not meant to add or delete anything. -/
theorem along_resized {x : SolverM σ α}
    (h : Solver.AllOrNothing σ → Along Solver.SameSize x) : Along Resized x := by
  intro s
  by_cases hs : Solver.AllOrNothing σ
  · exact (h hs s).mono (fun _ _ ht _ => ht) fun _ _ ht _ => ht
  · exact (Ends.self x s).mono (fun _ _ _ h => (hs h).elim) fun _ _ _ h => (hs h).elim

/-- Configuring and running a solver adds and deletes nothing. -/
theorem respects_resized : Solver.Respects (Resized (σ := σ)) where
  setBasis _ := along_resized fun hs => Solver.along_of_resizes fun s => hs.setBasis s _
  setInt _ _ := along_resized fun hs => Solver.along_of_resizes fun s => hs.setInt s _ _
  setReal _ _ := along_resized fun hs => Solver.along_of_resizes fun s => hs.setReal s _ _
  solvePrimal := along_resized fun hs => Solver.along_of_resizes hs.solvePrimal
  solveDual := along_resized fun hs => Solver.along_of_resizes hs.solveDual
  restore _ := along_resized fun hs => Solver.along_of_resizes fun s => hs.restore s _

theorem Unedited.quiet (h : Unedited Resized lp t) : Quiet lp t where
  unmoved := ⟨.of_without (fun _ => rfl) (fun _ => rfl) h.matrix, h.columns, h.rows, h.solver⟩
  shape := by
    have hdetails : t.matrix.without .details = lp.matrix.without .details :=
      ConstraintMatrix.without_eq_of_without (fun _ => rfl) (fun _ => rfl) h.matrix
    rw [ConstraintMatrix.shape, ConstraintMatrix.shape, hdetails]

theorem quiet_of_unedited {x : RelaxationM σ α} (h : Along (Unedited Resized) x) : Along Quiet x :=
  h.mono fun _ _ => Unedited.quiet

/-! ## Flags and settings -/

theorem quiet_desync : Along Quiet (desync : RelaxationM σ Unit) :=
  quiet_modifyMatrix fun _ => ⟨rfl, rfl, Nat.le_refl _, Nat.le_refl _⟩

theorem quiet_markUnsolved : Along Quiet (markUnsolved : RelaxationM σ Unit) :=
  quiet_of_unedited unedited_markUnsolved

theorem quiet_losePrimal : Along Quiet (losePrimal : RelaxationM σ Unit) :=
  quiet_of_unedited unedited_losePrimal

theorem quiet_loseDual : Along Quiet (loseDual : RelaxationM σ Unit) :=
  quiet_of_unedited unedited_loseDual

theorem quiet_setCutoff (cutoff : Extended) :
    Along Quiet (setCutoff cutoff : RelaxationM σ Unit) :=
  quiet_of_unedited (unedited_setCutoff cutoff)

theorem quiet_setIterationLimit (limit : Option Nat) :
    Along Quiet (setIterationLimit limit : RelaxationM σ Unit) :=
  .modify fun _ => quiet_of_eq rfl rfl rfl rfl

/-- A parameter of the solver says nothing about columns and rows. -/
theorem quiet_setInt (parameter : IntParameter) (value : Int) :
    Along Quiet (onSolver (Solver.setInt parameter value) : RelaxationM σ Unit) :=
  quiet_onSolver fun hs => Solver.along_of_resizes fun s => hs.setInt s parameter value

theorem quiet_setSettings (settings : Settings) :
    Along Quiet (setSettings settings : RelaxationM σ Unit) :=
  .bind (quiet_setInt _ _) fun _ => .bind (quiet_setInt _ _) fun _ =>
    .modify fun _ => quiet_of_eq rfl rfl rfl rfl

/-! ## Locks -/

theorem quiet_lockRow (r : RowRef) : Along Quiet (lockRow r : RelaxationM σ Unit) :=
  quiet_updateRow r (fun _ => rfl) fun _ => rfl

theorem quiet_unlockRow (r : RowRef) : Along Quiet (unlockRow r : RelaxationM σ Unit) :=
  .bind (along_getRow r) fun _ =>
    .ite .throw_bind (quiet_updateRow r (fun _ => rfl) fun _ => rfl)

/-! ## Objective, bounds, sides and constants -/

/-- What a matrix counts as does not matter for what is in it. -/
theorem quiet_of_matrix {m : ConstraintMatrix} {b : Bool} (hrestated : Restated lp t)
    (hm : ConstraintMatrix.Remarked lp.matrix m) (hmatrix : t.matrix = { m with synced := b }) :
    Quiet lp t where
  unmoved := {
    stays := by
      rw [hmatrix]
      exact hm.stays.trans ⟨rfl, Nat.le_refl _, Nat.le_refl _⟩
    columns := hrestated.columns
    rows := hrestated.rows
    counts := fun _ => hrestated.solver ▸ refl _ }
  shape := by
    rw [hmatrix, ← hm.shape]
    rfl

theorem Respecified.quiet {spec : ColumnSpec} (h : Respecified c spec lp t) : Quiet lp t := by
  obtain ⟨b, hmatrix⟩ := h.matrix
  refine quiet_of_matrix h.toRestated ?_ hmatrix
  exact .modifyColumn lp.matrix c (fun _ => rfl) fun _ => rfl

theorem RowRespecified.quiet {row : Row} {spec : RowSpec} (h : RowRespecified r row spec lp t) :
    Quiet lp t := by
  obtain ⟨f, b, hmatrix, hf⟩ := h.matrix
  refine quiet_of_matrix h.toRestated ?_ hmatrix
  exact .modifyRow lp.matrix r (hf.congr Forgetting.details.row fun _ => rfl)
    (hf.congr Forgetting.allButPlaces.row fun _ => rfl)

theorem admitsChanges_quiet : AdmitsChanges (Quiet : Relaxation σ → Relaxation σ → Prop) where
  respecified h := h.quiet
  rowRespecified _ h := h.quiet

/-! ## Edits of coefficients -/

theorem quiet_coefficientEdited (c : ColumnRef) (r : RowRef) :
    Along Quiet (coefficientEdited c r : RelaxationM σ Unit) :=
  quiet_of_unedited (unedited_coefficientEdited c r)

/-! ## Solutions -/

theorem quiet_storeSolution : Along Quiet (storeSolution : RelaxationM σ Unit) :=
  quiet_of_unedited unedited_storeSolution

theorem quiet_restoreSolution : Along Quiet (restoreSolution : RelaxationM σ Unit) :=
  quiet_of_unedited unedited_restoreSolution

theorem quiet_rowActivity (r : RowRef) :
    Along Quiet (rowActivity r : RelaxationM σ Extended) :=
  quiet_of_unedited (unedited_rowActivity r)

theorem quiet_rowFeasibility (r : RowRef) :
    Along Quiet (rowFeasibility r : RelaxationM σ Extended) :=
  quiet_of_unedited (unedited_rowFeasibility r)

end Relaxation

end CertifiedLp
