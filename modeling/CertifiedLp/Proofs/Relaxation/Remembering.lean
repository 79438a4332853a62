import Mathlib
import CertifiedLp.Proofs.Relaxation.Actions
import CertifiedLp.Proofs.Relaxation.Tracking

/-!
# What edits remember of the last solve

No edit makes up a status. It keeps that of the last solve, together with whether its values belong
to the linear program, or it forgets both at once. Nor does it touch a solution that was put aside, or
the cutoff bound. The same holds for the operations that bring the solver up to date, configure and
run it.
-/

namespace CertifiedLp

/-- Whether an action may do something else about the last solve than to forget it: it solves, puts a
solution aside or brings it back, or sets the cutoff bound. -/
def Action.concernsSolution : Action → Bool
  | setCutoff _ | solve _ | solveAnd .. | storeSolution | restoreSolution | startDive _
  | endDive _ => true
  | _ => false

namespace Relaxation

variable {σ : Type} [Solver σ] {α : Type} {p : Prop} {lp t : Relaxation σ}

/-! ## Single steps -/

theorem remembers_onMatrix (x : MatrixM α) : Along (Remembers p) (onMatrix x : RelaxationM σ α) :=
  fun lp => ends_onMatrix.mpr ((Ends.self x lp.matrix).mono
    (fun _ _ _ => remembers_of_eq rfl rfl rfl rfl) fun _ _ _ => remembers_of_eq rfl rfl rfl rfl)

theorem remembers_onSolver (x : SolverM σ α) : Along (Remembers p) (onSolver x : RelaxationM σ α) :=
  fun lp => ends_onSolver.mpr ((Ends.self x lp.solver).mono
    (fun _ _ _ => remembers_of_eq rfl rfl rfl rfl) fun _ _ _ => remembers_of_eq rfl rfl rfl rfl)

theorem remembers_updateRow (r : RowRef) (f : Row → Row) :
    Along (Remembers p) (updateRow r f : RelaxationM σ Unit) := remembers_onMatrix _

theorem remembers_modify {g : Relaxation σ → Relaxation σ}
    (h : ∀ lp, (g lp).flags.solved = lp.flags.solved ∧ (g lp).status = lp.status ∧
      (g lp).stored = lp.stored ∧ (g lp).cutoff = lp.cutoff) :
    Along (Remembers p) (modify g : RelaxationM σ PUnit) :=
  .modify fun lp => remembers_of_eq (h lp).1 (h lp).2.1 (h lp).2.2.1 (h lp).2.2.2

theorem remembers_modifyMatrix (f : ConstraintMatrix → ConstraintMatrix) :
    Along (Remembers p) (modifyMatrix f : RelaxationM σ Unit) :=
  remembers_modify fun _ => ⟨rfl, rfl, rfl, rfl⟩

theorem remembers_desync : Along (Remembers p) (desync : RelaxationM σ Unit) := remembers_modifyMatrix _

theorem remembers_losePrimal : Along (Remembers p) (losePrimal : RelaxationM σ Unit) :=
  remembers_modify fun _ => ⟨rfl, rfl, rfl, rfl⟩

theorem remembers_loseDual : Along (Remembers p) (loseDual : RelaxationM σ Unit) :=
  remembers_modify fun _ => ⟨rfl, rfl, rfl, rfl⟩

theorem remembers_markUnsolved : Along (Remembers True) (markUnsolved : RelaxationM σ Unit) :=
  .modify fun _ => ⟨.inr ⟨trivial, rfl, rfl⟩, rfl, rfl⟩

/-- The end of an edit of the active linear program. -/
theorem remembers_obsolete {x : RelaxationM σ Unit} (hx : Along (Remembers True) x) :
    Along (Remembers True) (do x; markUnsolved) := .bind hx fun _ => remembers_markUnsolved

/-! ## Rows and columns -/

theorem remembers_createColumn (problem : Problem) (x : VariableRef) :
    Along (Remembers p) (createColumn problem x : RelaxationM σ (Problem × ColumnRef)) := fun lp =>
  ends_createColumn_iff.mpr ⟨fun _ => refl lp, fun _ => ⟨fun _ => refl lp, fun _ =>
    remembers_of_eq rfl rfl rfl rfl⟩⟩

theorem remembers_createRow (name : String) (spec : RowSpec) :
    Along (Remembers p) (createRow name spec : RelaxationM σ RowRef) := fun lp =>
  ends_createRow_iff.mpr ⟨fun _ => refl lp, fun _ => remembers_of_eq rfl rfl rfl rfl⟩

theorem remembers_captureRow (r : RowRef) : Along (Remembers p) (captureRow r : RelaxationM σ Unit) :=
  remembers_updateRow r _

theorem remembers_releaseRow (r : RowRef) :
    Along (Remembers p) (releaseRow r : RelaxationM σ Unit) := by
  refine .bind (along_getRow r) fun _ => .ite .throw_bind (.ite .throw_bind ?_)
  exact .bind (remembers_updateRow r _) fun _ => .ite (remembers_onMatrix _) .pure

theorem remembers_lockRow (r : RowRef) : Along (Remembers p) (lockRow r : RelaxationM σ Unit) :=
  remembers_updateRow r _

theorem remembers_unlockRow (r : RowRef) : Along (Remembers p) (unlockRow r : RelaxationM σ Unit) :=
  .bind (along_getRow r) fun _ => .ite .throw_bind (remembers_updateRow r _)

/-! ## The active linear program -/

theorem remembers_addColumn (c : ColumnRef) :
    Along (Remembers True) (addColumn c : RelaxationM σ Unit) := by
  refine .bind (along_getColumn c) fun _ => .ite .throw_bind (.get fun _ => ?_)
  refine .bind (remembers_onMatrix _) fun _ => ?_
  refine .bind (remembers_modify fun _ => ⟨rfl, rfl, rfl, rfl⟩) fun _ => ?_
  exact .bind remembers_desync fun _ => remembers_obsolete remembers_loseDual

theorem remembers_addRow (r : RowRef) :
    Along (Remembers True) (addRow r : RelaxationM σ Unit) := by
  refine .bind (remembers_onMatrix _) fun _ => ?_
  refine .bind (along_getRow r) fun _ => .ite .throw_bind ?_
  refine .bind (remembers_captureRow r) fun _ => .get fun _ => ?_
  refine .bind (remembers_onMatrix _) fun _ => ?_
  refine .bind (remembers_modify fun _ => ⟨rfl, rfl, rfl, rfl⟩) fun _ => ?_
  exact .bind remembers_desync fun _ => remembers_obsolete remembers_losePrimal

theorem remembers_shrinkColumns (size : Nat) :
    Along (Remembers True) (shrinkColumns size : RelaxationM σ Unit) := by
  refine .get fun lp => .ite ?_ .pure
  refine .bind (remembers_modify fun _ => ⟨rfl, rfl, rfl, rfl⟩) fun _ => ?_
  refine .bind (.forIn (fun c _ => ?_) _) fun _ => ?_
  · refine .bind (remembers_onMatrix _) fun _ => .bind (along_getColumn c) fun _ => ?_
    exact .bind (remembers_modify fun _ => ⟨rfl, rfl, rfl, rfl⟩) fun _ => .pure
  exact .bind (remembers_modifyMatrix _) fun _ => remembers_obsolete remembers_desync

theorem remembers_shrinkRows (size : Nat) :
    Along (Remembers True) (shrinkRows size : RelaxationM σ Unit) := by
  refine .get fun lp => .ite ?_ .pure
  refine .bind (remembers_modify fun _ => ⟨rfl, rfl, rfl, rfl⟩) fun _ => ?_
  refine .bind (.forIn (fun r _ => ?_) _) fun _ => ?_
  · exact .bind (remembers_onMatrix _) fun _ => .bind (remembers_releaseRow r) fun _ => .pure
  exact .bind (remembers_modifyMatrix _) fun _ => remembers_obsolete remembers_desync

theorem remembers_deleteRows (mask : Array Bool) :
    Along (Remembers True) (deleteRows mask : RelaxationM σ Unit) := by
  refine .get fun lp => .ite .throw_bind ?_
  split
  · exact .pure
  refine .bind (remembers_modify fun _ => ⟨rfl, rfl, rfl, rfl⟩) fun _ => ?_
  refine .bind (.forIn (fun r _ => .bind (remembers_onMatrix _) fun _ => .pure) _) fun _ => ?_
  refine .bind (.forIn (fun x _ => .bind (remembers_onMatrix _) fun _ => .pure) _) fun _ => ?_
  refine .bind (.forIn (fun r _ => .bind (remembers_releaseRow r) fun _ => .pure) _) fun _ => ?_
  exact .bind (remembers_modifyMatrix _) fun _ => remembers_obsolete remembers_desync

theorem remembers_clear : Along (Remembers True) (clear : RelaxationM σ Unit) :=
  .bind (remembers_shrinkColumns 0) fun _ => remembers_shrinkRows 0

/-! ## Objective, bounds, sides and constants -/

theorem Restated.remembers (h : Restated lp t) : Remembers True lp t where
  outcome := h.outcome.imp_right fun hobsolete => ⟨trivial, hobsolete⟩
  stored := h.stored
  cutoff := h.cutoff

theorem admitsChanges_remembers :
    AdmitsChanges (Remembers True : Relaxation σ → Relaxation σ → Prop) where
  respecified h := h.toRestated.remembers
  rowRespecified _ h := h.toRestated.remembers

/-! ## Coefficients -/

theorem remembers_coefficientEdited (c : ColumnRef) (r : RowRef) :
    Along (Remembers True) (coefficientEdited c r : RelaxationM σ Unit) := by
  refine .bind (along_getColumn c) fun _ => .ite ?_ .pure
  refine .bind (along_getRow r) fun _ => .ite ?_ .pure
  exact .bind remembers_losePrimal fun _ => remembers_obsolete remembers_loseDual

theorem remembers_coefficient (c : ColumnRef) (r : RowRef) :
    Along (Remembers p) (coefficient c r : RelaxationM σ Extended) := remembers_onMatrix _

theorem remembers_delayOrder (r : RowRef) : Along (Remembers p) (delayOrder r : RelaxationM σ Unit) :=
  remembers_onMatrix _

theorem remembers_forceOrder (r : RowRef) : Along (Remembers p) (forceOrder r : RelaxationM σ Unit) :=
  remembers_onMatrix _

theorem remembers_edit (c : ColumnRef) (r : RowRef) (e : Edit) :
    Along (Remembers True) (edit c r e : RelaxationM σ Unit) := by
  rw [edit_eq]
  exact .bind (remembers_onMatrix _) fun _ => remembers_coefficientEdited c r

theorem remembers_addCoefficientsInRow (r : RowRef) (coefficients : List (ColumnRef × Extended)) :
    Along (Remembers True) (addCoefficientsInRow r coefficients : RelaxationM σ Unit) := by
  have hstore (x : ColumnRef × Extended) :
      Along (Remembers True) (addCoefficientInRow r x.1 x.2 : RelaxationM σ Unit) :=
    remembers_edit x.1 r (.addInRow x.2)
  refine .bind (along_getRow r) fun row => ?_
  refine .when (remembers_delayOrder r) (.bind (.forIn (fun x _ => ?_) _) fun _ => ?_)
  · exact .bind (hstore x) fun _ => .pure
  · exact .ite (remembers_forceOrder r) .pure

/-! ## Bringing the solver up to date -/

theorem Informed.remembers {S : σ → σ → Prop} (h : Informed S lp t) : Remembers True lp t :=
  ⟨h.outcome.imp_right fun h => ⟨trivial, h.1, h.2⟩, h.stored, h.cutoff⟩

theorem remembers_sync : Along (Remembers True) (sync : RelaxationM σ Unit) :=
  (informed_sync updates_whatever).mono fun _ _ => Informed.remembers

theorem remembers_setSettings (settings : Settings) :
    Along (Remembers p) (setSettings settings : RelaxationM σ Unit) :=
  .bind (remembers_onSolver _) fun _ => .bind (remembers_onSolver _) fun _ =>
    remembers_modify fun _ => ⟨rfl, rfl, rfl, rfl⟩

theorem remembers_undoDive (problem : Problem) (dive : Dive σ) :
    Along (Remembers True) (undoDive problem dive : RelaxationM σ Unit) := by
  rw [undoDive_eq]
  refine .bind (admitsChanges_remembers.undoEdits remembers_shrinkRows problem dive) fun _ => ?_
  exact .bind remembers_sync fun _ => remembers_onSolver _

/-! ## Solves -/

theorem remembers_of_weighed {x : RelaxationM σ α} (h : Along (Weighed p Whatever) x) :
    Along (Remembers p) x := h.mono fun _ _ => Weighed.toRemembers

theorem remembers_acceptSolution (a : Approximation) (write : Bool) (limit : Option Extended) :
    Along (Remembers p) (acceptSolution a write limit : RelaxationM σ (Bool × Approximation)) :=
  remembers_of_weighed (weighed_acceptSolution a write limit)

theorem remembers_acceptFarkas (a : Approximation) (write : Bool) :
    Along (Remembers p) (acceptFarkas a write : RelaxationM σ (Bool × Approximation)) :=
  remembers_of_weighed (weighed_acceptFarkas a write)

theorem remembers_runSolver : Along (Remembers p) (runSolver : RelaxationM σ Bool) :=
  remembers_of_weighed (weighed_runSolver respects_whatever)

theorem remembers_takeAnswer (limit : Extended) :
    Along (Remembers True) (takeAnswer limit : RelaxationM σ Answer) :=
  remembers_of_weighed (weighed_takeAnswer respects_whatever limit)

/-! ## All other actions -/

theorem remembers_perform (a : Action) (ha : a.concernsSolution = false) :
    Along (Remembers True) (perform a : RelaxationM σ Unit) := by
  cases a with
  | setSettings settings => exact remembers_setSettings settings
  | createColumn problem x => exact along_forgetful (remembers_createColumn problem x)
  | createRow name spec => exact along_forgetful (remembers_createRow name spec)
  | captureRow r => exact remembers_captureRow r
  | releaseRow r => exact remembers_releaseRow r
  | lockRow r => exact remembers_lockRow r
  | unlockRow r => exact remembers_unlockRow r
  | addColumn c => exact remembers_addColumn c
  | addRow r => exact remembers_addRow r
  | shrinkColumns size => exact remembers_shrinkColumns size
  | shrinkRows size => exact remembers_shrinkRows size
  | deleteRows mask => exact remembers_deleteRows mask
  | clear => exact remembers_clear
  | changeObjective c objective => exact admitsChanges_remembers.changeObjective c objective
  | changeBound c side value => exact admitsChanges_remembers.changeBound c side value
  | changeSide r side value => exact admitsChanges_remembers.changeSide r side value
  | changeConstant r constant => exact admitsChanges_remembers.changeConstant r constant
  | coefficient c r => exact along_forgetful (remembers_coefficient c r)
  | edit c r e => exact remembers_edit c r e
  | addCoefficientsInRow r coefficients => exact remembers_addCoefficientsInRow r coefficients
  | delayOrder r => exact remembers_delayOrder r
  | forceOrder r => exact remembers_forceOrder r
  | sync => exact remembers_sync
  | rowActivity r => exact along_forgetful (remembers_of_weighed (weighed_rowActivity r))
  | rowFeasibility r =>
    exact along_forgetful (remembers_of_weighed (weighed_rowFeasibility r))
  | setIterationLimit limit => exact remembers_modify fun _ => ⟨rfl, rfl, rfl, rfl⟩
  | _ => cases ha

end Relaxation

end CertifiedLp
