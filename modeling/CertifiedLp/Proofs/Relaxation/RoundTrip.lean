import Mathlib
import CertifiedLp.Proofs.Matrix.RoundTrip
import CertifiedLp.Proofs.Relaxation.Lifetimes

/-!
# Adding and deleting a coefficient of a relaxation

A coefficient that is added from either side and deleted again leaves the lists of its column and
its row with the entries that they had, in the same parts. Their order is another matter: a search
sorts what it looks at, and the last entry of a part takes the place of the one that is removed.
-/

namespace CertifiedLp

namespace Relaxation

variable {σ : Type} [Solver σ] {lp : Relaxation σ} {c : ColumnRef} {r : RowRef} {row : Row}
variable {e : Edit} {v : Extended} {actions : List Action} {solver : σ} {settings : Settings}

/-- An edit of a relaxation does to its matrix what the edit of the matrix does. -/
theorem ends_edit_matrix {P : ConstraintMatrix → Prop}
    (h : Ends (ConstraintMatrix.edit c r e) lp.matrix
      (fun _ m => (m.row? r).isSome = true ∧ P m) fun _ _ => False) :
    Ends (edit c r e) lp (fun _ t => P t.matrix) fun _ _ => False := by
  rw [edit_eq, Ends.bind_iff, ends_onMatrix]
  refine h.mono_ok fun _ m hm => ?_
  obtain ⟨row, hrow⟩ := Option.isSome_iff_exists.mp hm.1
  refine Ends.mono_ok (ends_coefficientEdited hrow) fun _ t ht => ?_
  rw [ht.2]
  exact hm.2

theorem Coherent.ends_roundTrip (hlp : lp.Coherent) (hvacant : lp.matrix.Vacant c r row)
    (he : e = .addInColumn v ∨ e = .addInRow v) (hv : v.isFinite = true ∧ v ≠ 0) :
    Ends (edit c r e) lp (fun _ t => Ends (edit c r .delete) t
      (fun _ u => lp.matrix.Returned u.matrix c r row e) fun _ _ => False) fun _ _ => False :=
  (ends_edit_matrix (hvacant.ends_roundTrip hlp.sound he hv)).mono_ok fun _ _ ht =>
    ends_edit_matrix ht

/-- A coefficient can be added and deleted again. Then both lists have the same entries as before in
each of their parts. The part in which the deletion found the entry is sorted if at most one partner
there comes behind the one of the entry. Any other part is sorted if it was so before or the
addition searched it. -/
theorem performAll_roundTrip (hcreate : create solver settings = .ok lp)
    (hactions : Throughout Permits lp actions)
    (hvacant : (lp.performAll actions).matrix.Vacant c r row)
    (he : e = .addInColumn v ∨ e = .addInRow v) (hv : v.isFinite = true ∧ v ≠ 0) :
    let start := lp.performAll actions
    let added := start.after (perform (.edit c r e))
    let deleted := added.after (perform (.edit c r .delete))
    start.accepts (perform (.edit c r e)) = true ∧
      added.accepts (perform (.edit c r .delete)) = true ∧
        start.matrix.Returned deleted.matrix c r row e := by
  intro start added deleted
  have hends := ((records_create hcreate).coherent.performAll hactions).ends_roundTrip hvacant he hv
  obtain ⟨haccepted, hrest⟩ := outcome_of_ends (P := fun accepted t => accepted = true ∧
    Ends (edit c r .delete) t (fun _ u => start.matrix.Returned u.matrix c r row e)
      fun _ _ => False) (hends.mono (fun _ _ ht => ⟨rfl, ht⟩) fun _ _ h => h.elim)
  obtain ⟨haccepted', hreturned⟩ := outcome_of_ends (P := fun accepted u => accepted = true ∧
    start.matrix.Returned u.matrix c r row e)
      (hrest.mono (fun _ _ hu => ⟨rfl, hu⟩) fun _ _ h => h.elim)
  exact ⟨haccepted, haccepted', hreturned⟩

/-- A row gets the coefficients of the second and the third of three columns. -/
def adjacentActions : List Action := [
  .createColumn smallProblem ⟨0⟩, .createColumn smallProblem ⟨0⟩, .createColumn smallProblem ⟨0⟩,
  .createRow "r" ⟨⟨1, .posInf⟩, 0⟩, .edit ⟨1⟩ ⟨0⟩ (.addInRow 1), .edit ⟨2⟩ ⟨0⟩ (.addInRow 1)]

theorem vacant_adjacentActions : ∃ row,
    (fresh.performAll adjacentActions).matrix.Vacant ⟨0⟩ ⟨0⟩ row ∧
      row.entries.isSorted .rest = true := by
  obtain ⟨row, hrow, htest⟩ := (Option.any_eq_true _ _).mp
    (show ((fresh.performAll adjacentActions).matrix.row? ⟨0⟩).any (fun row => !row.isLocked &&
      !row.delayed && row.entries.isSorted .rest &&
        row.entries.entries.all fun e => e.partner ≠ ⟨0⟩) = true by decide +kernel)
  simp only [Bool.and_eq_true, Bool.not_eq_true', Array.all_eq_true_iff_forall_mem,
    decide_eq_true_eq] at htest
  have hcolumn : 0 < (fresh.performAll adjacentActions).matrix.columns.size := by decide +kernel
  exact ⟨row, ⟨hcolumn, hrow, htest.1.1.1, htest.1.1.2, by decide +kernel, htest.2⟩, htest.1.2⟩

/-- The coefficient of the first column is added to the row and deleted. The row is sorted before,
and is not sorted afterwards. -/
theorem performAll_roundTrip_unsorted :
    let start := fresh.performAll adjacentActions
    let added := start.after (perform (.edit ⟨0⟩ ⟨0⟩ (.addInRow 1)))
    let deleted := added.after (perform (.edit ⟨0⟩ ⟨0⟩ .delete))
    Throughout Permits fresh adjacentActions ∧
      (∃ row, start.matrix.Vacant ⟨0⟩ ⟨0⟩ row ∧ row.entries.isSorted .rest = true) ∧
      start.accepts (perform (.edit ⟨0⟩ ⟨0⟩ (.addInRow 1))) = true ∧
      added.accepts (perform (.edit ⟨0⟩ ⟨0⟩ .delete)) = true ∧
      (deleted.matrix.row? ⟨0⟩).map (·.entries.isSorted .rest) = some false := by
  refine ⟨by decide +kernel, vacant_adjacentActions, ?_, ?_, ?_⟩
  · cbv
  · cbv
  · cbv

/-- The coefficient is added from its column instead, which does not touch the list of the row. -/
theorem performAll_roundTrip_adjacent :
    let start := fresh.performAll adjacentActions
    let added := start.after (perform (.edit ⟨0⟩ ⟨0⟩ (.addInColumn 1)))
    let deleted := added.after (perform (.edit ⟨0⟩ ⟨0⟩ .delete))
    (∃ row, start.matrix.Vacant ⟨0⟩ ⟨0⟩ row ∧
      start.matrix.Returned deleted.matrix ⟨0⟩ ⟨0⟩ row (.addInColumn 1)) ∧
      (deleted.matrix.row? ⟨0⟩).map (·.entries.isSorted .rest) = some true := by
  obtain ⟨row, hvacant, -⟩ := vacant_adjacentActions
  have hreturned := performAll_roundTrip create_fresh
    (show Throughout Permits fresh adjacentActions by decide +kernel) hvacant (.inl rfl)
    (show (1 : Extended).isFinite = true ∧ (1 : Extended) ≠ 0 by decide)
  refine ⟨⟨row, hvacant, hreturned.2.2⟩, ?_⟩
  cbv

end Relaxation

end CertifiedLp
