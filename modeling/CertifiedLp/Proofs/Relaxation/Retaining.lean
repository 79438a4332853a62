import Mathlib
import CertifiedLp.Proofs.Matrix.Retaining
import CertifiedLp.Proofs.Relaxation.Frames

/-!
# What a relaxation retains

A solution that was put aside is safe: edits, solves and whatever else is done during a dive leave it
alone, on the lines as well as in the relaxation. Nor do they have a row delay its order, those that are
about the order of the row apart. So when a row is given several values at once, it is clear in which
order it is left, also if one of them is refused.
-/

namespace CertifiedLp

namespace Relaxation

open ConstraintMatrix (Retains blindToEntries_retains blindToEdits_retains retains_of_lines)

variable {σ : Type} [Solver σ] {S : σ → σ → Prop} {lp t : Relaxation σ} {α : Type} {c : ColumnRef}
variable {r : RowRef} {row : Row} {ordered : Set RowRef}

/-- The solution that was put aside is the same, and rows still delay their order or not, unless it is
about their order. -/
structure Retained (ordered : Set RowRef) (lp t : Relaxation σ) : Prop where
  matrix : Retains ordered lp.matrix t.matrix
  stored : t.stored = lp.stored

instance : IsPreorder (Relaxation σ) (Retained ordered) where
  refl _ := ⟨refl _, rfl⟩
  trans _ _ _ h h' := ⟨IsTrans.trans _ _ _ h.matrix h'.matrix, h'.stored.trans h.stored⟩

theorem Informed.retained (h : Informed S lp t) : Retained ordered lp t :=
  ⟨h.matrix.retains (fun _ => rfl) (fun _ => rfl) fun _ => rfl, h.stored⟩

theorem Consulted.retained (h : Consulted S lp t) : Retained ordered lp t :=
  ⟨(ConstraintMatrix.sameBut_of_without h.results).retains (fun _ => rfl) (fun _ => rfl) fun _ => rfl,
    h.stored⟩

theorem retained_of_informed {x : RelaxationM σ α} (h : Along (Informed Whatever) x) :
    Along (Retained ordered) x := h.mono fun _ _ => Informed.retained

/-! ## Single steps -/

theorem retained_modify {g : Relaxation σ → Relaxation σ}
    (h : ∀ lp, (g lp).matrix = lp.matrix ∧ (g lp).stored = lp.stored) :
    Along (Retained ordered) (modify g : RelaxationM σ PUnit) :=
  .modify fun lp => ⟨by rw [(h lp).1]; exact refl _, (h lp).2⟩

theorem retained_onMatrix {x : MatrixM α} (h : Along (Retains ordered) x) :
    Along (Retained ordered) (onMatrix x : RelaxationM σ α) := fun lp =>
  ends_onMatrix.mpr ((h lp.matrix).mono (fun _ _ h => ⟨h, rfl⟩) fun _ _ h => ⟨h, rfl⟩)

theorem retained_modifyMatrix {f : ConstraintMatrix → ConstraintMatrix}
    (h : ∀ m, Retains ordered m (f m)) :
    Along (Retained ordered) (modifyMatrix f : RelaxationM σ Unit) := .modify fun lp => ⟨h lp.matrix, rfl⟩

theorem retained_updateRow (r : RowRef) {f : Row → Row} (hstored : ∀ row, (f row).stored = row.stored)
    (hdelayed : ∀ row, (f row).delayed = row.delayed) :
    Along (Retained ordered) (updateRow r f : RelaxationM σ Unit) :=
  retained_onMatrix (ConstraintMatrix.along_updateRow_of_modifyRow fun m =>
    .modifyRow m r (fun row _ => hstored row) fun row _ _ => hdelayed row)

theorem retained_desync : Along (Retained ordered) (desync : RelaxationM σ Unit) :=
  retained_modifyMatrix fun _ => retains_of_lines rfl rfl

/-- The end of an edit of the active linear program. -/
theorem retained_obsolete {x : RelaxationM σ Unit} (hx : Along (Retained ordered) x) :
    Along (Retained ordered) (do x; markUnsolved) :=
  .bind hx fun _ => retained_of_informed informed_markUnsolved

/-! ## Objective, bounds, sides and constants -/

theorem admitsChanges_retained :
    AdmitsChanges (Retained ordered : Relaxation σ → Relaxation σ → Prop) where
  respecified {c spec lp t} h := by
    obtain ⟨b, hmatrix⟩ := h.matrix
    refine ⟨?_, h.stored⟩
    rw [hmatrix]
    have hchanged : Retains ordered lp.matrix (lp.matrix.modifyColumn c ({ · with spec })) :=
      .modifyColumn lp.matrix c fun _ => rfl
    exact IsTrans.trans _ _ _ hchanged (retains_of_lines rfl rfl)
  rowRespecified {r row spec lp t} _ h := by
    obtain ⟨f, b, hmatrix, hf⟩ := h.matrix
    refine ⟨?_, h.stored⟩
    rw [hmatrix]
    have hchanged : Retains ordered lp.matrix (lp.matrix.modifyRow r f) :=
      .modifyRow lp.matrix r (fun row _ => hf.congr Row.stored (fun _ => rfl) row)
        fun row _ _ => hf.congr Row.delayed (fun _ => rfl) row
    exact IsTrans.trans _ _ _ hchanged (retains_of_lines rfl rfl)

/-! ## Rows -/

theorem retained_createRow (name : String) (spec : RowSpec) :
    Along (Retained ordered) (createRow name spec : RelaxationM σ RowRef) := fun lp => by
  rw [ends_createRow_iff]
  refine ⟨fun _ => refl lp, fun _ => ⟨?_, rfl⟩⟩
  refine ⟨Nat.le_refl _, by simp [ConstraintMatrix.pushRow], fun _ => rfl, fun {r row'} hr hrow' => ?_⟩
  rw [ConstraintMatrix.row?, ConstraintMatrix.pushRow, Array.getElem?_push_lt hr,
    ← Array.getElem?_eq_getElem hr] at hrow'
  exact ⟨row', hrow', rfl, fun _ => rfl⟩

/-- A row is merged before it enters. -/
theorem retained_addRow (hr : r ∈ ordered) :
    Along (Retained ordered) (addRow r : RelaxationM σ Unit) := by
  refine .bind (retained_onMatrix (ConstraintMatrix.retains_forceOrder hr)) fun _ => ?_
  refine .bind (along_getRow r) fun _ => .ite .throw_bind ?_
  refine .bind (retained_updateRow r (fun _ => rfl) fun _ => rfl) fun _ => .get fun _ => ?_
  refine .bind (retained_onMatrix (blindToEntries_retains.setRowActivePosition fun m =>
    .modifyRow m r (fun _ _ => rfl) fun _ _ _ => rfl)) fun _ => ?_
  refine .bind (retained_modify fun _ => ⟨rfl, rfl⟩) fun _ => .bind retained_desync fun _ => ?_
  exact retained_obsolete (retained_of_informed informed_losePrimal)

theorem retained_releaseRow (r : RowRef) :
    Along (Retained ordered) (releaseRow r : RelaxationM σ Unit) := by
  refine .bind (along_getRow r) fun _ => .ite .throw_bind (.ite .throw_bind ?_)
  refine .bind (retained_updateRow r (fun _ => rfl) fun _ => rfl) fun _ => .ite ?_ .pure
  exact retained_onMatrix (blindToEntries_retains.freeRow fun m =>
    ConstraintMatrix.retains_withoutRow m r)

theorem retained_shrinkRows (size : Nat) :
    Along (Retained ordered) (shrinkRows size : RelaxationM σ Unit) := by
  refine .get fun lp => .ite ?_ .pure
  refine .bind (retained_modify fun _ => ⟨rfl, rfl⟩) fun _ => ?_
  refine .bind (.forIn (fun r _ => ?_) _) fun _ => ?_
  · refine .bind (retained_onMatrix (blindToEntries_retains.setRowActivePosition fun m =>
      .modifyRow m r (fun _ _ => rfl) fun _ _ _ => rfl)) fun _ => ?_
    exact .bind (retained_releaseRow r) fun _ => .pure
  refine .bind (retained_modifyMatrix fun _ => retains_of_lines rfl rfl) fun _ => ?_
  exact retained_obsolete retained_desync

/-! ## Coefficients -/

theorem retained_edit (c : ColumnRef) (r : RowRef) (e : Edit) :
    Along (Retained ordered) (edit c r e : RelaxationM σ Unit) := by
  have hedit : Along (Retains ordered) (ConstraintMatrix.edit c r e) := by
    cases e with
    | addInColumn v => exact blindToEdits_retains.addInColumn c r v
    | addInRow v => exact blindToEdits_retains.addInRow r c v
    | change v => exact blindToEdits_retains.change c r v
    | increase v => exact blindToEdits_retains.increase r c v
    | delete => exact blindToEdits_retains.delete c r
  rw [edit_eq]
  refine .bind (retained_onMatrix hedit) fun _ => .bind (along_getColumn c) fun _ => ?_
  refine .ite (.bind (along_getRow r) fun _ => .ite ?_ .pure) .pure
  refine .bind (retained_of_informed informed_losePrimal) fun _ => ?_
  exact retained_obsolete (retained_of_informed informed_loseDual)

theorem retained_delayOrder (hr : r ∈ ordered) :
    Along (Retained ordered) (delayOrder r : RelaxationM σ Unit) :=
  retained_onMatrix (ConstraintMatrix.retains_delayOrder hr)

theorem retained_forceOrder (hr : r ∈ ordered) :
    Along (Retained ordered) (forceOrder r : RelaxationM σ Unit) :=
  retained_onMatrix (ConstraintMatrix.retains_forceOrder hr)

theorem retained_addCoefficientsInRow (hr : r ∈ ordered)
    (coefficients : List (ColumnRef × Extended)) :
    Along (Retained ordered) (addCoefficientsInRow r coefficients : RelaxationM σ Unit) := by
  have hstore (x : ColumnRef × Extended) :
      Along (Retained ordered) (addCoefficientInRow r x.1 x.2 : RelaxationM σ Unit) :=
    retained_edit x.1 r (.addInRow x.2)
  refine .bind (along_getRow r) fun _ => .when (retained_delayOrder hr) ?_
  refine .bind (.forIn (fun x _ => .bind (hstore x) fun _ => .pure) _) fun _ => ?_
  exact .ite (retained_forceOrder hr) .pure

/-! ## The order of a row that is given several values -/

/-- A row delays its order, or does not. -/
def DelaysOrder (r : RowRef) (delayed : Bool) (lp : Relaxation σ) : Prop :=
  ∃ row, lp.matrix.row? r = some row ∧ row.delayed = delayed

theorem delaysOrder_modifyRow (hrow : lp.matrix.row? r = some row) (f : Row → Row) :
    DelaysOrder r (f row).delayed { lp with matrix := lp.matrix.modifyRow r f } := by
  refine ⟨f row, ?_, rfl⟩
  rw [ConstraintMatrix.row?_modifyRow, if_pos rfl, hrow, Option.map_some]

/-- An edit leaves the order of a row to others. -/
theorem DelaysOrder.ends_edit {delayed : Bool} (h : DelaysOrder r delayed lp) (c : ColumnRef)
    (s : RowRef) (e : Edit) :
    Ends (edit c s e) lp (fun _ t => DelaysOrder r delayed t) fun _ t => DelaysOrder r delayed t := by
  have hkept {t : Relaxation σ} (hretained : Retained ∅ lp t) (hintact : Intact lp t) :
      DelaysOrder r delayed t := by
    obtain ⟨row, hrow, hdelayed⟩ := h
    obtain ⟨row', hrow', -⟩ := hintact.matrix.exists_row (Set.notMem_empty r) hrow
    refine ⟨row', hrow', ?_⟩
    rw [(hretained.matrix.of_row hrow hrow').2 (Set.notMem_empty r), hdelayed]
  have hsteady : Along (Steady Whatever (.edits ∅)) (edit c s e : RelaxationM σ Unit) :=
    steady_edit c s e
  exact ((retained_edit c s e lp).and (hsteady lp)).mono (fun _ _ ht => hkept ht.1 ht.2.intact)
    fun _ _ ht => hkept ht.1 ht.2.intact

theorem ends_delayOrder_delays (hrow : lp.matrix.row? r = some row) (hinactive : row.isActive = false)
    (hunlinked : row.isUnlinked = true) :
    Ends (delayOrder r) lp (fun _ t => DelaysOrder r true t) fun _ _ => False := by
  have hallowed : ¬ (row.isActive || !row.isUnlinked) = true := by simp [hinactive, hunlinked]
  rw [delayOrder, ends_onMatrix, ConstraintMatrix.delayOrder, Ends.bind_iff,
    ConstraintMatrix.ends_getRow hrow, if_neg hallowed, ConstraintMatrix.ends_updateRow hrow]
  exact delaysOrder_modifyRow hrow _

/-- A row that cannot be merged still delays its order. -/
theorem DelaysOrder.ends_forceOrder (h : DelaysOrder r true lp) :
    Ends (forceOrder r) lp (fun _ t => DelaysOrder r false t) fun _ t => DelaysOrder r true t := by
  obtain ⟨row, hrow, hdelayed⟩ := h
  rw [forceOrder, ends_onMatrix, ConstraintMatrix.forceOrder, Ends.bind_iff,
    ConstraintMatrix.ends_getRow hrow, if_pos hdelayed, ConstraintMatrix.mergeRow, Ends.bind_iff,
    ConstraintMatrix.ends_getRow hrow, Ends.ite_iff]
  refine ⟨fun _ => ⟨row, hrow, hdelayed⟩, fun _ => ?_⟩
  rw [Ends.bind_iff, Ends.get_iff, ConstraintMatrix.ends_updateRow hrow]
  exact delaysOrder_modifyRow hrow _

/-- A row that is given several values delays its order afterwards if it did so before. If a value is
refused, then so does a row that would have been merged in the end. -/
theorem ends_addCoefficientsInRow_delays (hrow : lp.matrix.row? r = some row)
    (coefficients : List (ColumnRef × Extended)) :
    Ends (addCoefficientsInRow r coefficients) lp (fun _ t => DelaysOrder r row.delayed t)
      fun _ t => DelaysOrder r (row.delayed || (!row.isActive && row.isUnlinked)) t := by
  have hall {t : Relaxation σ} {delayed : Bool} (ht : DelaysOrder r delayed t) :
      Ends (forIn coefficients PUnit.unit fun x _ => do
          addCoefficientInRow r x.1 x.2
          pure (ForInStep.yield PUnit.unit) : RelaxationM σ PUnit) t
        (fun _ u => DelaysOrder r delayed u) fun _ u => DelaysOrder r delayed u := by
    refine Ends.forIn_keeps (DelaysOrder r delayed) ht fun x _ u hu => ?_
    rw [Ends.bind_iff]
    exact (hu.ends_edit x.1 r (.addInRow x.2)).mono (fun _ _ hv => ⟨rfl, hv⟩) fun _ _ hv => hv
  rw [addCoefficientsInRow, Ends.bind_iff, ends_getRow hrow, Ends.ite_iff]
  refine ⟨fun htogether => ?_, fun hseparate => ?_⟩
  · have hdelay : row.delayed = false ∧ row.isActive = false ∧ row.isUnlinked = true := by
      simpa [and_assoc] using htogether
    obtain ⟨hordered, hinactive, hunlinked⟩ := hdelay
    have hlater : (row.delayed || (!row.isActive && row.isUnlinked)) = true := by
      simp [hinactive, hunlinked]
    rw [hlater, Ends.bind_iff]
    refine (ends_delayOrder_delays hrow hinactive hunlinked).mono (fun _ t ht => ?_) fun _ _ h => h.elim
    rw [Ends.bind_iff]
    refine (hall ht).mono_ok fun _ u hu => ?_
    rw [if_pos htogether, hordered]
    exact hu.ends_forceOrder
  · have hsame : (row.delayed || (!row.isActive && row.isUnlinked)) = row.delayed := by
      cases hdelayed : row.delayed <;> simp_all
    rw [hsame, Ends.bind_iff]
    refine (hall ⟨row, hrow, rfl⟩).mono_ok fun _ u hu => ?_
    rw [if_neg hseparate]
    exact hu

end Relaxation

end CertifiedLp
