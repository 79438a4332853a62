import Mathlib
import CertifiedLp.Proofs.Relaxation.Tracking
import CertifiedLp.Proofs.Resuming

/-!
# Operations that do not look at the solver

Edits do the same whatever the state of the solver is, and a solution is brought back whatever was
known about the solution before.
-/

namespace CertifiedLp

namespace Relaxation

variable {σ : Type} [Solver σ] {lp t : Relaxation σ} {g : Relaxation σ → Relaxation σ} {α : Type}
variable {s : σ}

/-- The relaxation on top of another solver. -/
def withSolver (s : σ) (lp : Relaxation σ) : Relaxation σ := { lp with solver := s }

/-- The relaxation on top of another solver, with something else known about the solution. -/
def withOutcome (s : σ) (flags : Flags) (status : LpStatus) (lp : Relaxation σ) : Relaxation σ :=
  { lp with solver := s, flags, status }

/-- A change of the state that does not concern the matrix. -/
structure OffMatrix (g : Relaxation σ → Relaxation σ) : Prop where
  matrix : ∀ lp, (g lp).matrix = lp.matrix
  commutes : ∀ lp m, g { lp with matrix := m } = { g lp with matrix := m }

theorem offMatrix_withSolver (s : σ) : OffMatrix (withSolver s) := ⟨fun _ => rfl, fun _ _ => rfl⟩

theorem offMatrix_withOutcome (s : σ) (flags : Flags) (status : LpStatus) :
    OffMatrix (withOutcome s flags status) := ⟨fun _ => rfl, fun _ _ => rfl⟩

/-! ## Operations on the matrix -/

theorem commutes_onMatrix (hg : OffMatrix g) (x : MatrixM α) :
    Commutes g (onMatrix x : RelaxationM σ α) := fun lp => by
  have hrun (u : Relaxation σ) : (onMatrix x : RelaxationM σ α).run.run u =
    ((x.run.run u.matrix).1, { u with matrix := (x.run.run u.matrix).2 }) := rfl
  rw [hrun, hrun, hg.matrix]
  exact Prod.ext rfl (hg.commutes lp _).symm

theorem commutes_modifyMatrix (hg : OffMatrix g) (f : ConstraintMatrix → ConstraintMatrix) :
    Commutes g (modifyMatrix f : RelaxationM σ Unit) := .modify fun lp => by
  rw [hg.matrix]
  exact (hg.commutes lp _).symm

theorem commutes_getColumn (hg : OffMatrix g) (c : ColumnRef) :
    Commutes g (getColumn c : RelaxationM σ Column) :=
  .get (fun _ => .pure _) fun lp => by rw [hg.matrix]

theorem commutes_getRow (hg : OffMatrix g) (r : RowRef) :
    Commutes g (getRow r : RelaxationM σ Row) :=
  .get (fun _ => .liftM _) fun lp => by rw [hg.matrix]

theorem commutes_updateRow (hg : OffMatrix g) (r : RowRef) (f : Row → Row) :
    Commutes g (updateRow r f : RelaxationM σ Unit) := commutes_onMatrix hg _

/-! ## Edits -/

theorem commutes_markUnsolved : Commutes (withSolver s) (markUnsolved : RelaxationM σ Unit) :=
  .modify fun _ => rfl

theorem commutes_losePrimal : Commutes (withSolver s) (losePrimal : RelaxationM σ Unit) :=
  .modify fun _ => rfl

theorem commutes_loseDual : Commutes (withSolver s) (loseDual : RelaxationM σ Unit) :=
  .modify fun _ => rfl

theorem commutes_updateSpec (c : ColumnRef) (f : ColumnSpec → ColumnSpec) :
    Commutes (withSolver s) (updateSpec c f : RelaxationM σ Unit) := by
  refine .bind (commutes_getColumn (offMatrix_withSolver s) c) fun column => ?_
  refine .bind (commutes_modifyMatrix (offMatrix_withSolver s) _) fun _ => .ite ?_ (.pure _)
  exact .bind (.modify fun _ => rfl) fun _ => .ite (.modify fun _ => rfl) (.pure _)

theorem commutes_queueColumn (c : ColumnRef) :
    Commutes (withSolver s) (queueColumn c : RelaxationM σ Unit) := by
  refine .bind (commutes_getColumn (offMatrix_withSolver s) c) fun column => .ite ?_ (.pure _)
  refine .bind (.modify fun lp => ?_) fun _ => commutes_modifyMatrix (offMatrix_withSolver s) _
  rw [apply_ite (withSolver s)]
  rfl

theorem commutes_queueRow (r : RowRef) :
    Commutes (withSolver s) (queueRow r : RelaxationM σ Unit) := by
  refine .bind (commutes_getRow (offMatrix_withSolver s) r) fun row => .ite ?_ (.pure _)
  refine .bind (.modify fun lp => ?_) fun _ => commutes_modifyMatrix (offMatrix_withSolver s) _
  rw [apply_ite (withSolver s)]
  rfl

theorem commutes_changeObjective (c : ColumnRef) (objective : Extended) :
    Commutes (withSolver s) (changeObjective c objective : RelaxationM σ Unit) := by
  refine .ite .throw_bind (.bind (commutes_getColumn (offMatrix_withSolver s) c) fun _ => ?_)
  refine .ite (.bind (commutes_updateSpec c _) fun _ => ?_) (.pure _)
  refine .bind (commutes_queueColumn c) fun _ => .ite ?_ (.pure _)
  exact .bind commutes_loseDual fun _ => commutes_markUnsolved

theorem commutes_changeBound (c : ColumnRef) (side : Side) (value : Extended) :
    Commutes (withSolver s) (changeBound c side value : RelaxationM σ Unit) := by
  refine .ite .throw_bind (.bind (commutes_getColumn (offMatrix_withSolver s) c) fun _ => ?_)
  refine .ite (.bind (commutes_updateSpec c _) fun _ => ?_) (.pure _)
  refine .bind (commutes_queueColumn c) fun _ => .ite ?_ (.pure _)
  exact .bind commutes_losePrimal fun _ => commutes_markUnsolved

theorem commutes_changeSide (r : RowRef) (side : Side) (value : Extended) :
    Commutes (withSolver s) (changeSide r side value : RelaxationM σ Unit) := by
  refine .ite .throw_bind (.bind (commutes_getRow (offMatrix_withSolver s) r) fun _ => ?_)
  refine .ite (.bind (commutes_updateRow (offMatrix_withSolver s) r _) fun _ => ?_) (.pure _)
  refine .bind (.modify fun _ => rfl) fun _ => ?_
  refine .bind (commutes_queueRow r) fun _ => .ite ?_ (.pure _)
  exact .bind commutes_losePrimal fun _ => commutes_markUnsolved

theorem commutes_releaseRow (r : RowRef) :
    Commutes (withSolver s) (releaseRow r : RelaxationM σ Unit) := by
  refine .bind (commutes_getRow (offMatrix_withSolver s) r) fun _ => ?_
  refine .ite .throw_bind (.ite .throw_bind ?_)
  refine .bind (commutes_updateRow (offMatrix_withSolver s) r _) fun _ => ?_
  exact .ite (commutes_onMatrix (offMatrix_withSolver s) _) (.pure _)

theorem commutes_shrinkRows (size : Nat) :
    Commutes (withSolver s) (shrinkRows size : RelaxationM σ Unit) := by
  refine .get (fun lp => .ite (.bind (.modify fun _ => rfl) fun _ => ?_) (.pure _)) fun _ => rfl
  refine .bind (.forIn (fun r _ => ?_) _) fun _ => ?_
  · refine .bind (commutes_onMatrix (offMatrix_withSolver s) _) fun _ => ?_
    exact .bind (commutes_releaseRow r) fun _ => .pure _
  refine .bind (commutes_modifyMatrix (offMatrix_withSolver s) _) fun _ => ?_
  exact .bind (commutes_modifyMatrix (offMatrix_withSolver s) _) fun _ => commutes_markUnsolved

/-- The edits of a dive are undone whatever the state of the solver is. -/
theorem commutes_undoEdits (problem : Problem) (dive : Dive σ) :
    Commutes (withSolver s) (undoEdits problem dive) := by
  refine .get (fun lp => .bind (.forIn (fun c _ => ?_) _) fun _ => ?_) fun _ => rfl
  · refine .bind (commutes_getColumn (offMatrix_withSolver s) c) fun _ => ?_
    refine .bind (commutes_changeObjective c _) fun _ => ?_
    refine .bind (commutes_changeBound c _ _) fun _ => ?_
    exact .bind (commutes_changeBound c _ _) fun _ => .pure _
  refine .bind (.forIn (fun x _ => ?_) _) fun _ => commutes_shrinkRows _
  exact .get (fun lp => .ite (.bind (commutes_changeSide _ _ _) fun _ => .pure _) (.pure _))
    fun _ => rfl

/-! ## Bringing a solution back -/

/-- Bring the values of a solution back. -/
def restoreValues (lp : Relaxation σ) : RelaxationM σ Unit := do
  modify ({ · with stored := none })
  for c in lp.columns do
    modifyMatrix (·.modifyColumn c Column.restore)
  for r in lp.rows do
    updateRow r (·.restore lp.nrSolves)

theorem run_restoreSolution {stored : StoredSolution} (h : lp.stored = some stored) :
    restoreSolution.run.run lp = (do
      restoreValues lp
      modify ({ · with
        status := stored.status, solverObjective := stored.objective, flags := stored.flags }) :
          RelaxationM σ Unit).run.run lp := by
  rw [restoreSolution, run_get_bind]
  split
  · next hnone => cases hnone.symm.trans h
  · next stored' hstored =>
    obtain rfl : stored' = stored := Option.some.inj (hstored.symm.trans h)
    simp only [restoreValues, bind_assoc, pure_bind]

theorem ends_restoreSolution_none (h : lp.stored = none) :
    Ends restoreSolution lp (fun _ _ => False) fun _ t => t = lp := by
  rw [restoreSolution, Ends.bind_iff, Ends.get_iff]
  split
  · rfl
  · next hstored => cases hstored.symm.trans h

/-- Whatever was known about the solution, afterwards it is known what was put aside with it. -/
theorem restoreSolution_withOutcome (s : σ) (flags : Flags) (status : LpStatus)
    (hrun : restoreSolution.run.run lp = (.ok (), t)) :
    restoreSolution.run.run (withOutcome s flags status lp) = (.ok (), withSolver s t) := by
  cases hstored : lp.stored with
  | none =>
    exact ((ends_restoreSolution_none hstored).of_ok hrun).elim
  | some stored =>
    have hg := offMatrix_withOutcome s flags status
    have hvalues : Commutes (withOutcome s flags status) (restoreValues lp) := by
      refine .bind (.modify fun _ => rfl) fun _ => ?_
      refine .bind (.forIn_array (fun c _ => ?_) _) fun _ => ?_
      · exact .bind (commutes_modifyMatrix hg _) fun _ => .pure _
      refine .bind (.forIn_array (fun r _ => ?_) _) fun _ => .pure _
      exact .bind (commutes_updateRow hg r _) fun _ => .pure _
    have hstored' : (withOutcome s flags status lp).stored = some stored := hstored
    rw [run_restoreSolution hstored] at hrun
    rw [run_restoreSolution hstored']
    obtain ⟨⟨⟩, u, hu, ht⟩ := run_bind_eq_ok.mp hrun
    cases ht
    exact run_bind_eq_ok.mpr ⟨(), withOutcome s flags status u, hvalues.of_ok hu, rfl⟩

end Relaxation

end CertifiedLp
