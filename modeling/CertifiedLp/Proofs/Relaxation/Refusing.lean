import Mathlib
import CertifiedLp.Proofs.Matrix.Refusing
import CertifiedLp.Proofs.Relaxation.Lifetimes

/-!
# Refused actions

An action on a single column, row or coefficient, and the removal of marked rows, is carried out
completely or refused without an effect. The only trace of a refusal is that a search may have
sorted some parts of incidence lists. Actions that consist of several of these, or that have to do
with the solver, are not of this kind.
-/

namespace CertifiedLp

/-- An action on a single object, or on all rows that are marked. -/
def Action.isSingle : Action → Bool
  | createColumn .. | createRow .. | captureRow _ | releaseRow _ | lockRow _ | unlockRow _
  | addColumn _ | addRow _ | deleteRows _ | changeObjective .. | changeBound .. | changeSide ..
  | changeConstant .. | edit .. | delayOrder _ | forceOrder _ => true
  | _ => false

namespace Relaxation

variable {σ : Type} [Solver σ] {lp t : Relaxation σ} {c : ColumnRef} {r : RowRef} {row : Row}
variable {a : Action} {actions : List Action} {solver : σ} {settings : Settings}

/-- At most the order of entries within the parts of their lines is different. -/
structure Unaffected (lp t : Relaxation σ) : Prop where
  matrix : lp.matrix.Reordered t.matrix
  others : t = { lp with matrix := t.matrix }

theorem Unaffected.refl (lp : Relaxation σ) : Unaffected lp lp := ⟨.refl _, rfl⟩

/-! ## Single actions -/

theorem ends_lockRow (lp : Relaxation σ) (r : RowRef) :
    Ends (lockRow r) lp (fun _ _ => True) fun _ t => t = lp := by
  rw [lockRow, updateRow, ends_onMatrix, ConstraintMatrix.ends_updateRow_iff]
  exact ⟨fun _ => trivial, fun _ => rfl⟩

theorem ends_unlockRow (lp : Relaxation σ) (r : RowRef) :
    Ends (unlockRow r) lp (fun _ _ => True) fun _ t => t = lp := by
  rw [unlockRow, Ends.bind_iff, ends_getRow_iff]
  refine ⟨fun row hrow => ?_, fun _ => rfl⟩
  rw [Ends.ite_iff]
  refine ⟨fun _ => rfl, fun _ => ?_⟩
  rw [updateRow, ends_onMatrix, ConstraintMatrix.ends_updateRow hrow]
  trivial

/-- A row that delays its order is not active, so it is not merged in vain. -/
theorem Coherent.ends_addRow_refused (hlp : lp.Coherent) (r : RowRef) :
    Ends (addRow r) lp (fun _ _ => True) fun _ t => t = lp := by
  rw [addRow, Ends.bind_iff, ends_onMatrix]
  cases hrow : lp.matrix.row? r with
  | none =>
    rw [ConstraintMatrix.ends_forceOrder_missing hrow]
  | some row =>
    cases hdelayed : row.delayed with
    | false =>
      rw [ConstraintMatrix.forceOrder, Ends.bind_iff, ConstraintMatrix.ends_getRow hrow, hdelayed,
        if_neg (by simp), Ends.pure_iff, Ends.bind_iff, ends_getRow hrow, Ends.ite_iff]
      refine ⟨fun _ => rfl, fun hinactive => ?_⟩
      exact (ends_enterRow hlp hrow hdelayed (Bool.eq_false_iff.mpr hinactive)).mono_ok
        fun _ _ _ => trivial
    | true =>
      have hinactive : row.isActive = false := by
        rw [Bool.eq_false_iff]
        intro hactive
        have horder := hlp.sound.tidy.inOrder (x := .row r)
          ((ConstraintMatrix.isActive_row hrow).trans hactive)
        rw [ConstraintMatrix.inOrder_row hrow, hdelayed] at horder
        cases horder
      refine (ConstraintMatrix.ends_forceOrder hlp.sound hrow).mono (fun _ m hm => ?_)
        fun _ m hm => by rw [hm]
      obtain ⟨hrevised, horder⟩ := hm
      have hforced : ({ lp with matrix := m } : Relaxation σ).Coherent :=
        Unmoved.coherent ⟨hrevised.stays, rfl, rfl, fun _ => refl _⟩ hlp hrevised.sound
      obtain ⟨row', hrow'⟩ := hrevised.stays.exists_row hrow
      have hplace : row'.place = row.place := Option.some.inj (by
        rw [← ConstraintMatrix.row_places hrow', ← ConstraintMatrix.row_places hrow,
          hrevised.stays.places])
      have hinactive' : row'.isActive = false := by
        rw [Row.isActive, show row'.activePosition = row.activePosition from
          congrArg (·.active) hplace]
        exact hinactive
      rw [Ends.bind_iff, ends_getRow hrow', hinactive', if_neg (by simp)]
      exact (ends_enterRow hforced hrow' ((ConstraintMatrix.inOrder_row hrow').mp horder)
        hinactive').mono_ok fun _ _ _ => trivial

theorem Coherent.ends_edit_refused (hlp : lp.Coherent) (hc : lp.matrix.Has (.column c)) (r : RowRef)
    (e : Edit) : Ends (edit c r e) lp (fun _ _ => True) fun _ t => Unaffected lp t := by
  cases hrow : lp.matrix.row? r with
  | none =>
    exact (ends_edit_missing hrow c e).mono (fun _ _ _ => trivial) fun _ t ht => ht ▸ .refl lp
  | some row =>
    rw [edit_eq, Ends.bind_iff, ends_onMatrix]
    refine ((ConstraintMatrix.failsEarly_edit hlp.sound hc hrow e).and
      (ConstraintMatrix.ends_edit hlp.sound hc hrow e)).mono (fun _ m hm => ?_)
      fun _ m hm => ⟨hm.1.2.reordered hlp.sound hm.1.1, rfl⟩
    obtain ⟨row', hrow'⟩ := hm.2.stays.exists_row hrow
    exact (ends_coefficientEdited hrow').mono (fun _ _ _ => trivial) fun _ _ hfalse => hfalse.elim

theorem Coherent.ends_delayOrder_refused (hlp : lp.Coherent) (r : RowRef) :
    Ends (delayOrder r) lp (fun _ _ => True) fun _ t => t = lp := by
  rw [delayOrder, ends_onMatrix]
  cases hrow : lp.matrix.row? r with
  | none =>
    rw [ConstraintMatrix.ends_delayOrder_missing hrow]
  | some row =>
    exact (ConstraintMatrix.ends_delayOrder hlp.sound hrow).mono (fun _ _ _ => trivial)
      fun _ m hm => by rw [hm]

theorem Coherent.ends_forceOrder_refused (hlp : lp.Coherent) (r : RowRef) :
    Ends (forceOrder r) lp (fun _ _ => True) fun _ t => t = lp := by
  rw [forceOrder, ends_onMatrix]
  cases hrow : lp.matrix.row? r with
  | none =>
    rw [ConstraintMatrix.ends_forceOrder_missing hrow]
  | some row =>
    exact (ConstraintMatrix.ends_forceOrder hlp.sound hrow).mono (fun _ _ _ => trivial)
      fun _ m hm => by rw [hm]

/-! ## All single actions -/

theorem ends_forgetful {α : Type} {x : RelaxationM σ α} {Q : α → Relaxation σ → Prop}
    (h : Ends x lp Q fun _ t => t = lp) :
    Ends (forgetful x) lp (fun _ _ => True) fun _ t => t = lp := by
  rw [forgetful, Ends.bind_iff]
  exact h.mono_ok fun _ _ _ => trivial

/-- A single action that is not an edit of a coefficient is refused without any trace. -/
theorem Coherent.ends_untouched (hlp : lp.Coherent) (ha : lp.Permits a)
    (hsingle : a.isSingle = true) (hedit : a.isEdit = false) :
    Ends (Relaxation.perform a) lp (fun _ _ => True) fun _ t => t = lp := by
  have hdone {x : RelaxationM σ Unit} {Q : Unit → Relaxation σ → Prop}
      (h : Ends x lp Q fun _ t => t = lp) : Ends x lp (fun _ _ => True) fun _ t => t = lp :=
    h.mono_ok fun _ _ _ => trivial
  have hrow {x : RelaxationM σ Unit} {r : RowRef} {Q : Row → Unit → Relaxation σ → Prop}
      (hsome : ∀ row, lp.matrix.row? r = some row → Ends x lp (Q row) fun _ t => t = lp)
      (hnone : lp.matrix.row? r = none → Ends x lp (fun _ _ => False) fun _ t => t = lp) :
      Ends x lp (fun _ _ => True) fun _ t => t = lp := by
    cases h : lp.matrix.row? r with
    | none => exact hdone (hnone h)
    | some row => exact hdone (hsome row h)
  cases a with
  | createColumn problem x => exact ends_forgetful (ends_createColumn hlp problem x)
  | createRow name spec => exact ends_forgetful (ends_createRow hlp name spec)
  | captureRow r => exact hdone (hlp.ends_captureRow_trades r)
  | releaseRow r =>
    exact (hlp.ends_releaseRow_trades r).mono (fun _ _ _ => trivial) fun _ _ ht => ht.1
  | lockRow r => exact ends_lockRow lp r
  | unlockRow r => exact ends_unlockRow lp r
  | addColumn c => exact hdone (ends_addColumn hlp (ha c (by simp [Action.columns])))
  | addRow r => exact hlp.ends_addRow_refused r
  | deleteRows mask => exact hdone (ends_deleteRows hlp mask)
  | changeObjective c objective => exact hdone (ends_changeObjective c objective)
  | changeBound c side value => exact hdone (ends_changeBound c side value)
  | changeSide r side value =>
    exact hrow (fun _ h => ends_changeSide h side value)
      fun h => ends_changeSide_missing h side value
  | changeConstant r constant =>
    exact hrow (fun _ h => ends_changeConstant h constant)
      fun h => ends_changeConstant_missing h constant
  | delayOrder r => exact hlp.ends_delayOrder_refused r
  | forceOrder r => exact hlp.ends_forceOrder_refused r
  | edit c r e => cases hedit
  | _ => cases hsingle

/-- A single action is refused with nothing but a search before. -/
theorem Coherent.ends_unaffected (hlp : lp.Coherent) (ha : lp.Permits a)
    (hsingle : a.isSingle = true) :
    Ends (Relaxation.perform a) lp (fun _ _ => True) fun _ t => Unaffected lp t := by
  cases hedit : a.isEdit with
  | false =>
    exact (hlp.ends_untouched ha hsingle hedit).mono (fun _ _ h => h) fun _ t ht => ht ▸ .refl lp
  | true =>
    cases a with
    | edit c r e => exact hlp.ends_edit_refused (ha c (by simp [Action.columns])) r e
    | addCoefficientsInRow => cases hsingle
    | _ => cases hedit

/-- No edit of a coefficient gets through to a locked row. -/
theorem run_edit_locked (hrow : lp.matrix.row? r = some row) (hlocked : row.isLocked = true)
    (c : ColumnRef) (e : Edit) :
    (edit c r e).run.run lp = (.error (.misuse (.rowLocked r)), lp) := by
  have hrefused : Ends (edit c r e) lp (fun _ _ => False)
      fun error t => error = .misuse (.rowLocked r) ∧ t = lp := by
    rw [edit_eq, Ends.bind_iff, ends_onMatrix]
    exact (ConstraintMatrix.ends_edit_locked hrow hlocked c e).mono (fun _ _ hfalse => hfalse.elim)
      fun _ m hm => ⟨hm.1, by rw [hm.2]⟩
  rw [Ends] at hrefused
  split at hrefused
  · exact hrefused.elim
  · next heq =>
    rw [heq, hrefused.1, hrefused.2]

/-- A single action that is refused leaves everything as it was, but for the order of entries
within the parts of their lines, and a locked row refuses every edit of its coefficients. -/
theorem performAll_refusals (hcreate : create solver settings = .ok lp)
    (hactions : Throughout Permits lp actions) :
    (∀ {a}, a.isSingle = true → (lp.performAll actions).Permits a →
      (lp.performAll actions).accepts (perform a) = false →
        Unaffected (lp.performAll actions) ((lp.performAll actions).after (perform a))) ∧
    ∀ {r row}, (lp.performAll actions).matrix.row? r = some row → row.isLocked = true →
      ∀ c e, (perform (.edit c r e)).run.run (lp.performAll actions) =
        (.error (.misuse (.rowLocked r)), lp.performAll actions) := by
  refine ⟨fun hsingle ha hrefused => ?_, fun hrow hlocked c e => run_edit_locked hrow hlocked c e⟩
  have hcoherent := (records_create hcreate).coherent.performAll hactions
  obtain ⟨error, hrun⟩ := exists_error_of_refuses hrefused
  exact (hcoherent.ends_unaffected ha hsingle).of_error hrun

/-- A row gets its coefficients out of order. Another row is locked. -/
def disorderlyActions : List Action := [
  .createColumn smallProblem ⟨0⟩, .createColumn smallProblem ⟨0⟩, .createRow "r" ⟨⟨1, .posInf⟩, 0⟩,
  .createRow "s" ⟨⟨0, .posInf⟩, 0⟩, .edit ⟨1⟩ ⟨0⟩ (.addInRow 1), .edit ⟨0⟩ ⟨0⟩ (.addInRow 2),
  .lockRow ⟨1⟩]

/-- A coefficient that is added once more from its column is found in its row, which is sorted for
that. -/
theorem performAll_refusals_disorderly :
    let lp := fresh.performAll disorderlyActions
    let t := lp.after (perform (.edit ⟨0⟩ ⟨0⟩ (.addInColumn 3)))
    Unaffected lp t ∧
      (lp.matrix.row? ⟨0⟩).map (·.entries.entries.toList.map (·.partner)) = some [⟨1⟩, ⟨0⟩] ∧
      (t.matrix.row? ⟨0⟩).map (·.entries.entries.toList.map (·.partner)) = some [⟨0⟩, ⟨1⟩] ∧
      (perform (.edit ⟨0⟩ ⟨1⟩ (.change 5))).run.run lp =
        (.error (.misuse (.rowLocked ⟨1⟩)), lp) := by
  have hrefusals := performAll_refusals create_fresh
    (show Throughout Permits fresh disorderlyActions by decide +kernel)
  have hrefused : (fresh.performAll disorderlyActions).accepts
      (perform (.edit ⟨0⟩ ⟨0⟩ (.addInColumn 3))) = false := by cbv
  obtain ⟨row, hrow, hlocked⟩ := (Option.any_eq_true _ _).mp
    (show ((fresh.performAll disorderlyActions).matrix.row? ⟨1⟩).any (·.isLocked) = true by
      decide +kernel)
  refine ⟨hrefusals.1 rfl (by decide +kernel) hrefused, ?_, ?_,
    hrefusals.2 hrow hlocked ⟨0⟩ (.change 5)⟩
  · cbv
  · cbv

end Relaxation

end CertifiedLp
