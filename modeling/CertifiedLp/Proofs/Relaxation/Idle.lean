import Mathlib
import CertifiedLp.Proofs.Relaxation.Mirroring

/-!
# Edits that change nothing

An objective coefficient, a bound, a side or a constant that is set to the value it has leaves the
relaxation as it is. To add zero to a coefficient leaves the matrix as it is, but what is known about
the solution is lost, as after every other edit between two active lines.
-/

namespace CertifiedLp

namespace Relaxation

variable {σ : Type} [Solver σ] {lp : Relaxation σ} {c : ColumnRef} {r : RowRef} {row : Row}
variable {a : Action} {e : Edit}

/-- An action that sets a number of a line to the value that it has. -/
inductive Resets (lp : Relaxation σ) : Action → Prop where
  | objective (c : ColumnRef) : Resets lp (.changeObjective c (lp.matrix.column c).spec.objective)
  | bound (c : ColumnRef) (side : Side) :
      Resets lp (.changeBound c side ((lp.matrix.column c).spec.bounds.get side))
  | side {r : RowRef} {row : Row} (side : Side) : lp.matrix.row? r = some row →
      Resets lp (.changeSide r side (row.spec.sides.get side))
  | constant {r : RowRef} {row : Row} : lp.matrix.row? r = some row →
      Resets lp (.changeConstant r row.spec.constant)

/-- Accepted or refused, such an action does nothing. -/
theorem Resets.ends (h : Resets lp a) :
    Ends (Relaxation.perform a) lp (fun _ t => t = lp) fun _ t => t = lp := by
  cases h with
  | objective c =>
    rw [Relaxation.perform, changeObjective, Ends.ite_iff]
    refine ⟨fun _ => rfl, fun _ => ?_⟩
    rw [Ends.bind_iff, ends_getColumn, if_neg (by simp), Ends.pure_iff]
  | bound c side =>
    rw [Relaxation.perform, changeBound, Ends.ite_iff]
    refine ⟨fun _ => rfl, fun _ => ?_⟩
    rw [Ends.bind_iff, ends_getColumn, if_neg (by simp), Ends.pure_iff]
  | side side hrow =>
    rw [Relaxation.perform, changeSide, Ends.ite_iff]
    refine ⟨fun _ => rfl, fun _ => ?_⟩
    rw [Ends.bind_iff, ends_getRow hrow, if_neg (by simp), Ends.pure_iff]
  | constant hrow =>
    rw [Relaxation.perform, changeConstant, Ends.ite_iff]
    refine ⟨fun _ => rfl, fun _ => ?_⟩
    rw [Ends.bind_iff, ends_getRow hrow, Ends.ite_iff]
    exact ⟨fun _ => rfl, fun _ => by rw [if_neg (by simp), Ends.pure_iff]⟩

/-- Nor do several of them. -/
theorem performAll_resets {actions : List Action} (h : ∀ a ∈ actions, Resets lp a) :
    lp.performAll actions = lp := by
  induction actions with
  | nil => rfl
  | cons a rest ih =>
    obtain ⟨ha, hrest⟩ := List.forall_mem_cons.1 h
    have hstep : lp.after (Relaxation.perform a) = lp := ha.ends.state (I := (· = lp))
    rw [performAll, hstep, ih hrest]

/-- Adding zero does nothing to the matrix. -/
theorem ends_matrixEdit_zero {m : ConstraintMatrix} (hrow : m.row? r = some row)
    (he : e ∈ [.addInColumn 0, .addInRow 0, .increase 0]) :
    Ends (ConstraintMatrix.edit c r e) m (fun _ t => t = m) fun _ t => t = m := by
  simp only [List.mem_cons, List.not_mem_nil, or_false] at he
  obtain rfl | rfl | rfl := he
  all_goals
    simp only [ConstraintMatrix.edit, ConstraintMatrix.addInColumn, ConstraintMatrix.addInRow,
      ConstraintMatrix.increase]
    rw [Ends.bind_iff, ConstraintMatrix.ends_checkUnlocked hrow]
    exact ⟨fun _ => rfl, fun _ => rfl⟩

/-- A coefficient to which zero is added counts as edited if both of its lines are active. -/
theorem ends_edit_zero (hrow : lp.matrix.row? r = some row)
    (he : e ∈ [.addInColumn 0, .addInRow 0, .increase 0]) :
    Ends (edit c r e) lp
      (fun _ t => t = if (lp.matrix.column c).isActive ∧ row.isActive then
        { lp with flags := .none, status := .notSolved } else lp)
      fun _ t => t = lp := by
  rw [edit_eq, Ends.bind_iff, ends_onMatrix]
  refine (ends_matrixEdit_zero hrow he).mono ?_ ?_
  · rintro _ _ rfl
    rw [coefficientEdited, Ends.bind_iff, ends_getColumn, Ends.ite_iff]
    refine ⟨fun hcolumn => ?_, fun hcolumn => by simp [hcolumn]⟩
    rw [Ends.bind_iff, ends_getRow hrow, Ends.ite_iff]
    exact ⟨fun hactive => by rw [if_pos ⟨hcolumn, hactive⟩]; rfl, fun hactive => by simp [hactive]⟩
  · rintro _ _ rfl
    rfl

end Relaxation

end CertifiedLp
