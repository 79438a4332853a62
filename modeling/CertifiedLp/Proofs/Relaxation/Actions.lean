import Mathlib
import CertifiedLp.Proofs.Relaxation.Carrying
import CertifiedLp.Proofs.Relaxation.Editing

/-!
# Actions

All that the user of a relaxation can do to it, and what one step of it preserves. Only edits change
a coefficient of a row that exists before and after them.
-/

namespace CertifiedLp

/-- What the user of a relaxation can do to it. -/
inductive Action where
  | setSettings (settings : Settings)
  | setCutoff (cutoff : Extended)
  | createColumn (problem : Problem) (x : VariableRef)
  | createRow (name : String) (spec : RowSpec)
  | captureRow (r : RowRef)
  | releaseRow (r : RowRef)
  | lockRow (r : RowRef)
  | unlockRow (r : RowRef)
  | addColumn (c : ColumnRef)
  | addRow (r : RowRef)
  | shrinkColumns (size : Nat)
  | shrinkRows (size : Nat)
  | deleteRows (mask : Array Bool)
  | clear
  | changeObjective (c : ColumnRef) (objective : Extended)
  | changeBound (c : ColumnRef) (side : Side) (value : Extended)
  | changeSide (r : RowRef) (side : Side) (value : Extended)
  | changeConstant (r : RowRef) (constant : Extended)
  | coefficient (c : ColumnRef) (r : RowRef)
  | edit (c : ColumnRef) (r : RowRef) (e : Edit)
  | addCoefficientsInRow (r : RowRef) (coefficients : List (ColumnRef × Extended))
  | delayOrder (r : RowRef)
  | forceOrder (r : RowRef)
  | sync
  | solve (a : Approximation)
  | solveAnd (write : Bool) (a : Approximation)
  | storeSolution
  | restoreSolution
  | rowActivity (r : RowRef)
  | rowFeasibility (r : RowRef)
  | startDive (store : Bool)
  | setIterationLimit (limit : Option Nat)
  | endDive (problem : Problem)

namespace Action

/-- The columns that an action names. -/
def columns : Action → List ColumnRef
  | addColumn c | changeObjective c _ | changeBound c _ _ | coefficient c _ | edit c _ _ => [c]
  | addCoefficientsInRow _ coefficients => coefficients.map (·.1)
  | _ => []

/-- Whether an action may change coefficients of rows that remain. -/
def isEdit : Action → Bool
  | edit .. | addCoefficientsInRow .. => true
  | _ => false

/-- Whether an action may bring the solver up to date. -/
def isSync : Action → Bool
  | sync | solve _ | solveAnd .. | startDive _ | endDive _ => true
  | _ => false

/-- Whether an action configures the solver without bringing it up to date. -/
def isConfiguration : Action → Bool
  | setSettings _ => true
  | _ => false

end Action

namespace Relaxation

open ConstraintMatrix (Sheds Undisturbed)

variable {σ : Type} [Solver σ] {lp t : Relaxation σ} {c : ColumnRef} {r : RowRef} {row : Row}
variable {a : Action} {L : Ledger}

/-- Drop the result of an operation. -/
def forgetful {α : Type} (x : RelaxationM σ α) : RelaxationM σ Unit := x >>= fun _ => pure ()

/-- Do what an action says. -/
def perform : Action → RelaxationM σ Unit
  | .setSettings settings => setSettings settings
  | .setCutoff cutoff => setCutoff cutoff
  | .createColumn problem x => forgetful (createColumn problem x)
  | .createRow name spec => forgetful (createRow name spec)
  | .captureRow r => captureRow r
  | .releaseRow r => releaseRow r
  | .lockRow r => lockRow r
  | .unlockRow r => unlockRow r
  | .addColumn c => addColumn c
  | .addRow r => addRow r
  | .shrinkColumns size => shrinkColumns size
  | .shrinkRows size => shrinkRows size
  | .deleteRows mask => deleteRows mask
  | .clear => clear
  | .changeObjective c objective => changeObjective c objective
  | .changeBound c side value => changeBound c side value
  | .changeSide r side value => changeSide r side value
  | .changeConstant r constant => changeConstant r constant
  | .coefficient c r => forgetful (coefficient c r)
  | .edit c r e => edit c r e
  | .addCoefficientsInRow r coefficients => addCoefficientsInRow r coefficients
  | .delayOrder r => delayOrder r
  | .forceOrder r => forceOrder r
  | .sync => sync
  | .solve a => forgetful (solve a)
  | .solveAnd write a => forgetful (solveAnd write a)
  | .storeSolution => storeSolution
  | .restoreSolution => restoreSolution
  | .rowActivity r => forgetful (rowActivity r)
  | .rowFeasibility r => forgetful (rowFeasibility r)
  | .startDive store => startDive store
  | .setIterationLimit limit => setIterationLimit limit
  | .endDive problem => endDive problem

/-- The columns that an action names exist. -/
def Permits (lp : Relaxation σ) (a : Action) : Prop :=
  ∀ c ∈ a.columns, lp.matrix.Has (.column c)

/-! ## Reading a coefficient -/

/-- The coefficient of a column in a row in order is read without an error. -/
theorem Coherent.ends_coefficient_ordered (hlp : lp.Coherent) (hc : lp.matrix.Has (.column c))
    (hrow : lp.matrix.row? r = some row) (hordered : row.delayed = false) :
    Ends (coefficient c r) lp
      (fun value t => (Unmoved lp t ∧ Carried Undisturbed lp t) ∧
        value = .finite (lp.matrix.amount c r))
      fun _ _ => False := by
  rw [coefficient, ends_onMatrix]
  refine (ConstraintMatrix.ends_coefficient hlp.sound hc hrow hordered).mono_ok
    fun value m ⟨⟨hsound, hsame⟩, hvalue⟩ => ⟨?_, hvalue⟩
  have hrevised := hsame.revised hsound
  have hunmoved : Unmoved lp { lp with matrix := m } :=
    ⟨hrevised.stays, rfl, rfl, fun _ => refl _⟩
  exact ⟨hunmoved, hunmoved.carries hrevised hlp⟩

theorem Coherent.ends_coefficient (hlp : lp.Coherent) (hc : lp.matrix.Has (.column c))
    (r : RowRef) :
    Ends (coefficient c r) lp (fun _ t => Unmoved lp t ∧ Carried Undisturbed lp t)
      fun _ t => Unmoved lp t ∧ Carried Undisturbed lp t := by
  cases hrow : lp.matrix.row? r with
  | none =>
    rw [coefficient, ends_onMatrix, ConstraintMatrix.coefficient, Ends.bind_iff,
      ConstraintMatrix.ends_checkOrdered_missing hrow]
    exact ⟨refl lp, hlp.carried⟩
  | some row =>
    cases hdelayed : row.delayed with
    | true =>
      rw [coefficient, ends_onMatrix, ConstraintMatrix.coefficient, Ends.bind_iff,
        ConstraintMatrix.ends_checkOrdered hrow]
      exact ⟨fun _ => ⟨refl lp, hlp.carried⟩,
        fun hordered => by cases hdelayed.symm.trans hordered⟩
    | false =>
      exact (hlp.ends_coefficient_ordered hc hrow hdelayed).mono (fun _ _ h => h.1)
        fun _ _ h => h.elim

/-! ## Steps -/

theorem along_forgetful {α : Type} {R : Relaxation σ → Relaxation σ → Prop}
    [IsPreorder (Relaxation σ) R] {x : RelaxationM σ α} (h : Along R x) :
    Along R (forgetful x) := .bind h fun _ => .pure

/-- An action that is not an edit, creates no row and does not bring the solver up to date, disturbs
no coefficients of rows that remain. -/
theorem Coherent.ends_undisturbed (hlp : lp.Coherent) (ha : lp.Permits a) (hedit : a.isEdit = false)
    (hsync : a.isSync = false) (hcreate : ∀ name spec, a ≠ .createRow name spec) :
    Ends (perform a) lp (fun _ t => Carried Undisturbed lp t)
      fun _ t => Carried Undisturbed lp t := by
  have hlong {x : RelaxationM σ Unit} (hx : Along (Carries Undisturbed) x) :
      Ends x lp (fun _ t => Carried Undisturbed lp t) fun _ t => Carried Undisturbed lp t :=
    hlp.carried.ends hx
  have hquiet {x : RelaxationM σ Unit} (hx : Along Quiet x) :
      Ends x lp (fun _ t => Carried Undisturbed lp t) fun _ t => Carried Undisturbed lp t :=
    hlong (along_of_quiet hx)
  cases a with
  | setSettings settings => exact hquiet (quiet_setSettings settings)
  | setCutoff cutoff => exact hquiet (quiet_setCutoff cutoff)
  | createColumn problem x => exact hlong (along_forgetful (along_createColumn problem x))
  | createRow name spec => exact (hcreate name spec rfl).elim
  | captureRow r => exact hlong (along_captureRow r)
  | releaseRow r => exact hlong (along_releaseRow r)
  | lockRow r => exact hquiet (quiet_lockRow r)
  | unlockRow r => exact hquiet (quiet_unlockRow r)
  | addColumn c =>
    refine (ends_addColumn hlp (ha c List.mem_cons_self)).mono (fun _ _ h => h) fun _ _ h => ?_
    rw [h]
    exact hlp.carried
  | addRow r => exact hlong (along_addRow r)
  | shrinkColumns size => exact hlong (along_shrinkColumns size)
  | shrinkRows size => exact hlong (along_shrinkRows size)
  | deleteRows mask => exact hlong (along_deleteRows mask)
  | clear => exact hlong along_clear
  | changeObjective c objective => exact hquiet (admitsChanges_quiet.changeObjective c objective)
  | changeBound c side value => exact hquiet (admitsChanges_quiet.changeBound c side value)
  | changeSide r side value => exact hquiet (admitsChanges_quiet.changeSide r side value)
  | changeConstant r constant => exact hquiet (admitsChanges_quiet.changeConstant r constant)
  | coefficient c r =>
    exact Ends.bind_iff.mpr ((hlp.ends_coefficient (ha c List.mem_cons_self) r).mono
      (fun _ _ h => h.2) fun _ _ h => h.2)
  | edit c r e => cases hedit
  | addCoefficientsInRow r coefficients => cases hedit
  | delayOrder r =>
    exact (hlp.ends_delayOrder r).mono (fun _ _ h => h.2) fun _ _ h => h.2
  | forceOrder r =>
    exact (hlp.ends_forceOrder r).mono (fun _ _ h => h.2) fun _ _ h => h.2
  | sync => cases hsync
  | solve a => cases hsync
  | solveAnd write a => cases hsync
  | storeSolution => exact hquiet quiet_storeSolution
  | restoreSolution => exact hquiet quiet_restoreSolution
  | rowActivity r => exact hlong (along_forgetful (along_of_quiet (quiet_rowActivity r)))
  | rowFeasibility r => exact hlong (along_forgetful (along_of_quiet (quiet_rowFeasibility r)))
  | startDive store => cases hsync
  | setIterationLimit limit => exact hquiet (quiet_setIterationLimit limit)
  | endDive problem => cases hsync

/-- An action that is not an edit, and creates no row, keeps all coefficients of rows that remain. -/
theorem Coherent.ends_carried (hlp : lp.Coherent) (ha : lp.Permits a) (hedit : a.isEdit = false)
    (hcreate : ∀ name spec, a ≠ .createRow name spec) :
    Ends (perform a) lp (fun _ t => Carried Sheds lp t) fun _ t => Carried Sheds lp t := by
  have hlong {x : RelaxationM σ Unit} (hx : Along (Carries Sheds) x) :
      Ends x lp (fun _ t => Carried Sheds lp t) fun _ t => Carried Sheds lp t :=
    hlp.carried.ends hx
  cases a with
  | sync => exact hlong along_sync
  | solve a => exact hlong (along_forgetful (bears_carries.solve a))
  | solveAnd write a => exact hlong (along_forgetful (bears_carries.solveAnd write a))
  | startDive store => exact hlong (bears_carries.startDive store)
  | endDive problem => exact hlong (bears_carries.endDive problem)
  | _ =>
    exact (hlp.ends_undisturbed ha hedit rfl hcreate).mono (fun _ _ h => h.sheds)
      fun _ _ h => h.sheds

/-- Every action keeps a relaxation coherent, whether it succeeds or not. -/
theorem Coherent.perform (hlp : lp.Coherent) (ha : lp.Permits a) :
    (lp.after (perform a)).Coherent := by
  cases a with
  | createRow name spec =>
    refine Ends.state (I := Coherent) (Ends.bind_iff.mpr ?_)
    exact (ends_createRow hlp name spec).mono (fun _ _ h => h.1) fun _ _ h => h ▸ hlp
  | edit c r e =>
    cases hrow : lp.matrix.row? r with
    | none =>
      have hends : Ends (edit c r e) lp (fun _ t => t.Coherent) fun _ t => t.Coherent :=
        (ends_edit_missing hrow c e).mono (fun _ _ h => h.elim) fun _ _ h => h ▸ hlp
      exact hends.state
    | some row =>
      have hedit := hlp.ends_edit (ha c List.mem_cons_self) hrow e
      exact (hedit.mono (fun _ _ h => h.coherent hlp) fun _ _ h => h.coherent hlp).state
  | addCoefficientsInRow r coefficients =>
    have hrecords : lp.Records lp.matrix.amount := ⟨hlp, rfl⟩
    have hbatch := hrecords.ends_addCoefficientsInRow (r := r) fun x hx =>
      ha x.1 (List.mem_map_of_mem hx)
    exact (hbatch.mono (fun _ _ h => h.2.coherent) fun _ _ h => h.2.coherent).state
  | _ =>
    exact ((hlp.ends_carried ha rfl (by simp)).mono (fun _ _ h => h.coherent)
      fun _ _ h => h.coherent).state

end Relaxation

end CertifiedLp
