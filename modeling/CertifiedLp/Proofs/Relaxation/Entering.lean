import Mathlib
import CertifiedLp.Proofs.Relaxation.Obsolescence

/-!
# What is left alone where lines enter and leave

Columns and rows enter and leave the active linear program, and rows are freed. Apart from the lists
of active lines, and the sum over the columns that are not active, all of this is steady.
-/

namespace CertifiedLp

namespace Relaxation

open ConstraintMatrix (Keeps)

variable {σ : Type} [Solver σ] {S : σ → σ → Prop} {lp t : Relaxation σ} {scope : Scope}
variable {c : ColumnRef} {r : RowRef} {α : Type}

/-! ## Lists -/

theorem Steady.withRows (h : Steady S scope lp t) (rows : Array RowRef) :
    Steady S scope { lp with rows } { t with rows } := { h with rows := rfl }

theorem Steady.withColumns (h : Steady S scope lp t) (columns : Array ColumnRef)
    (loose : ObjectiveSum) : Steady S scope { lp with columns, loose } { t with columns, loose } :=
  { h with columns := rfl, loose := rfl }

/-- Nothing but the list of active rows differs, and what is steady. -/
def RowsSteady (S : σ → σ → Prop) (scope : Scope) (lp t : Relaxation σ) : Prop :=
  ∃ rows, Steady S scope { lp with rows } t

theorem Steady.rowsSteady (h : Steady S scope lp t) : RowsSteady S scope lp t := ⟨lp.rows, h⟩

variable [IsPreorder σ S]

instance : IsPreorder (Relaxation σ) (RowsSteady S scope) where
  refl lp := ⟨lp.rows, refl lp⟩
  trans _ _ _ := fun ⟨_, h⟩ ⟨rows, h'⟩ => ⟨rows, IsTrans.trans _ _ _ (h.withRows rows) h'⟩

omit [IsPreorder σ S] in
theorem rowsSteady_of_steady {x : RelaxationM σ α} (h : Along (Steady S scope) x) :
    Along (RowsSteady S scope) x := h.mono fun _ _ => Steady.rowsSteady

/-- After a steady operation, another one is steady altogether. -/
theorem Steady.ends {x : RelaxationM σ α} (h : Steady S scope lp t) (hx : Along (Steady S scope) x) :
    Ends x t (fun _ u => Steady S scope lp u) fun _ u => Steady S scope lp u :=
  (hx t).mono (fun _ _ hu => IsTrans.trans _ _ _ h hu) fun _ _ hu => IsTrans.trans _ _ _ h hu

/-- A change of the matrix that concerns no line. -/
theorem steady_modifyMatrix {f : ConstraintMatrix → ConstraintMatrix}
    (h : ∀ m, Keeps scope m (f m)) :
    Along (Steady S scope) (modifyMatrix f : RelaxationM σ Unit) :=
  fun lp => steady_matrix (h lp.matrix)

theorem steady_desync : Along (Steady S scope) (desync : RelaxationM σ Unit) :=
  steady_modifyMatrix fun m => .desync m

theorem steady_markUnsolved : Along (Steady S scope) (markUnsolved : RelaxationM σ Unit) :=
  steady_of_unedited unedited_markUnsolved

/-- The end of an operation on the list of active columns. -/
theorem steady_changedColumns (size : Nat) : Along (Steady S scope) (do
    modifyMatrix fun m => { m with firstChangedColumn := min m.firstChangedColumn size }
    desync
    markUnsolved : RelaxationM σ Unit) := fun _ =>
  IsTrans.trans _ _ _ (steady_matrix (.changedFrom (Nat.min_le_left _ _) (Nat.le_refl _)))
    (Unedited.steady (unedited_status ..))

/-- The end of an operation on the list of active rows. -/
theorem steady_changedRows (size : Nat) : Along (Steady S scope) (do
    modifyMatrix fun m => { m with firstChangedRow := min m.firstChangedRow size }
    desync
    markUnsolved : RelaxationM σ Unit) := fun _ =>
  IsTrans.trans _ _ _ (steady_matrix (.changedFrom (Nat.le_refl _) (Nat.min_le_left _ _)))
    (Unedited.steady (unedited_status ..))

/-! ## Columns -/

/-- Nothing but the lists changes where a column enters. -/
theorem ends_addColumn_steady (scope : Scope) (c : ColumnRef) :
    Ends (addColumn c) lp (fun _ t => (lp.matrix.column c).isActive = false ∧
        Steady S scope { lp with
          columns := lp.columns.push c
          loose := lp.loose.remove (lp.matrix.column c).spec.bestObjective? } t)
      fun _ t => Steady S scope lp t := by
  rw [addColumn, Ends.bind_iff, ends_getColumn, Ends.ite_iff]
  refine ⟨fun _ => refl lp, fun hinactive => ?_⟩
  have hmove : Along (Steady S scope) (onMatrix (ConstraintMatrix.setColumnActivePosition c
      (some lp.columns.size)) : RelaxationM σ Unit) :=
    steady_onMatrix (ConstraintMatrix.along_setColumnActivePosition c _)
  have hend : Along (Steady S scope) (do desync; loseDual; markUnsolved : RelaxationM σ Unit) :=
    .bind steady_desync fun _ => .bind (steady_of_unedited unedited_loseDual) fun _ =>
      steady_markUnsolved
  rw [Ends.bind_iff, Ends.get_iff, Ends.bind_iff]
  refine (hmove lp).mono (fun _ t ht => ?_) fun _ _ ht => ht
  rw [Ends.bind_iff, Ends.modify_iff, ht.columns, ht.loose]
  refine (((ht.withColumns _ _).ends hend).of_unfailing ?_).mono_ok fun _ _ hu => ?_
  · simp [desync, loseDual, markUnsolved]
  · exact ⟨Bool.eq_false_iff.mpr hinactive, hu⟩

/-- Nothing but the lists changes where columns leave. -/
theorem ends_shrinkColumns_steady (scope : Scope) (size : Nat) :
    Ends (shrinkColumns size) lp (fun _ t => Steady S scope { lp with
        columns := lp.columns.extract 0 size
        loose := (backwards lp.columns size).foldl
          (fun s c => s.add (lp.matrix.column c).spec.bestObjective?) lp.loose } t)
      fun _ t => ∃ columns loose, Steady S scope { lp with columns, loose } t := by
  rw [shrinkColumns, Ends.bind_iff, Ends.get_iff, Ends.ite_iff]
  refine ⟨fun hlt => ?_, fun hge => ?_⟩
  · rw [Ends.bind_iff, Ends.modify_iff, Ends.bind_iff, ← backwards]
    refine (Ends.forIn_list (fun done t => Steady S scope { lp with
        columns := lp.columns.extract 0 size
        loose := done.foldl (fun s c => s.add (lp.matrix.column c).spec.bestObjective?) lp.loose } t)
      ?_ fun done c rest t _ ht => ?_).mono_ok fun _ t ht =>
        (ht.ends (steady_changedColumns size)).mono (fun _ _ hu => hu) fun _ _ hu => ⟨_, _, hu⟩
    · exact refl _
    · have hmove : Along (Steady S scope) (onMatrix (ConstraintMatrix.setColumnActivePosition c none) :
          RelaxationM σ Unit) :=
        steady_onMatrix (ConstraintMatrix.along_setColumnActivePosition c _)
      rw [Ends.bind_iff]
      refine (ht.ends hmove).mono (fun _ u hu => ?_) fun _ _ hu => ⟨_, _, hu⟩
      have hspec : (u.matrix.column c).spec = (lp.matrix.column c).spec :=
        congrArg (·.2.1) (hu.matrix.column c)
      rw [Ends.bind_iff, ends_getColumn, Ends.bind_iff, Ends.modify_iff, Ends.pure_iff, hspec,
        hu.loose, List.foldl_concat]
      exact ⟨rfl, { hu with loose := rfl }⟩
  · have hall : lp.columns.extract 0 size = lp.columns :=
      Array.extract_eq_self_of_le (Nat.not_lt.mp hge)
    have hnone : backwards lp.columns size = [] := by
      simp [backwards, Array.extract_empty_of_size_le_start (Nat.not_lt.mp hge)]
    rw [Ends.pure_iff, hall, hnone]
    exact refl lp

/-! ## Rows -/

/-- A row that may be gone can be released. -/
theorem steady_releaseRow (hr : r ∈ scope.gone) :
    Along (Steady S scope) (releaseRow r : RelaxationM σ Unit) := by
  refine .bind (along_getRow r) fun row => ?_
  refine .ite .throw_bind <| .ite .throw_bind <| .bind ?_ fun _ => .ite ?_ .pure
  · exact steady_updateRow r (fun _ => rfl) fun _ => rfl
  · exact steady_onMatrix (ConstraintMatrix.along_freeRow hr)

/-- Nothing but the list changes where a row enters, and not even that if it does not. -/
theorem ends_addRow_steady (scope : Scope) (r : RowRef) :
    Ends (addRow r) lp (fun _ t => Steady S scope { lp with rows := lp.rows.push r } t)
      fun _ t => Steady S scope lp t := by
  have hforce : Along (Steady S scope)
      (onMatrix (ConstraintMatrix.forceOrder r) : RelaxationM σ Unit) :=
    steady_onMatrix (ConstraintMatrix.along_forceOrder r)
  have hmove (n : Nat) : Along (Steady S scope)
      (onMatrix (ConstraintMatrix.setRowActivePosition r (some n)) : RelaxationM σ Unit) :=
    steady_onMatrix (ConstraintMatrix.along_setRowActivePosition r _)
  have hend : Along (Steady S scope) (do desync; losePrimal; markUnsolved : RelaxationM σ Unit) :=
    .bind steady_desync fun _ => .bind (steady_of_unedited unedited_losePrimal) fun _ =>
      steady_markUnsolved
  rw [addRow, Ends.bind_iff]
  refine (hforce lp).mono (fun _ t₁ h₁ => ?_) fun _ _ h => h
  rw [Ends.bind_iff]
  refine (h₁.ends (along_getRow r)).mono (fun row t₂ h₂ => ?_)
    fun _ _ h => h
  rw [Ends.ite_iff]
  refine ⟨fun _ => h₂, fun _ => ?_⟩
  rw [Ends.bind_iff]
  refine (h₂.ends (steady_captureRow r)).mono (fun _ t₃ h₃ => ?_) fun _ _ h => h
  rw [Ends.bind_iff, Ends.get_iff, Ends.bind_iff]
  refine (h₃.ends (hmove _)).mono (fun _ t₄ h₄ => ?_) fun _ _ h => h
  rw [Ends.bind_iff, Ends.modify_iff, h₄.rows]
  exact ((h₄.withRows _).ends hend).of_unfailing (by simp [desync, losePrimal, markUnsolved])

/-- Nothing but the list changes where rows leave, those that may be gone apart. -/
theorem ends_shrinkRows_steady {size : Nat}
    (hgone : ∀ r ∈ lp.rows.extract size lp.rows.size, r ∈ scope.gone) :
    Ends (shrinkRows size) lp
      (fun _ t => Steady S scope { lp with rows := lp.rows.extract 0 size } t)
      fun _ t => RowsSteady S scope lp t := by
  rw [shrinkRows, Ends.bind_iff, Ends.get_iff, Ends.ite_iff]
  refine ⟨fun _ => ?_, fun hge => ?_⟩
  · rw [Ends.bind_iff, Ends.modify_iff, Ends.bind_iff, ← backwards]
    refine (Ends.forIn_keeps (fun t => Steady S scope { lp with rows := lp.rows.extract 0 size } t)
      (refl _) fun r hr t ht => ?_).mono_ok fun _ t ht =>
        (ht.ends (steady_changedRows size)).mono (fun _ _ hu => hu) fun _ _ hu => ⟨_, hu⟩
    have hleave : Along (Steady S scope) (do
        onMatrix (ConstraintMatrix.setRowActivePosition r none)
        releaseRow r : RelaxationM σ Unit) :=
      .bind (steady_onMatrix (ConstraintMatrix.along_setRowActivePosition r _)) fun _ =>
        steady_releaseRow (hgone r (mem_backwards.mp hr))
    have hends := Ends.bind_iff.mp (ht.ends hleave)
    rw [Ends.bind_iff]
    refine hends.mono (fun _ u hu => ?_) fun _ _ hu => ⟨_, hu⟩
    rw [Ends.bind_iff]
    exact hu.mono (fun _ _ hu => ⟨rfl, hu⟩) fun _ _ hu => ⟨_, hu⟩
  · rw [Ends.pure_iff, Array.extract_eq_self_of_le (Nat.not_lt.mp hge)]
    exact refl lp

/-- Nothing but the list changes where rows leave, if all of them may be gone. -/
theorem rowsSteady_shrinkRows (marks : Prop) (size : Nat) :
    Along (RowsSteady S ⟨Set.univ, marks⟩) (shrinkRows size : RelaxationM σ Unit) := fun _ =>
  (ends_shrinkRows_steady fun r _ => Set.mem_univ r).mono (fun _ _ h => ⟨_, h⟩) fun _ _ h => h

theorem rowsSteady_deleteRows (marks : Prop) (mask : Array Bool) :
    Along (RowsSteady S ⟨Set.univ, marks⟩) (deleteRows mask : RelaxationM σ Unit) := by
  have hmove (r : RowRef) (position : Option Nat) : Along (RowsSteady S ⟨Set.univ, marks⟩) (do
      onMatrix (ConstraintMatrix.setRowActivePosition r position)
      pure (ForInStep.yield PUnit.unit) : RelaxationM σ (ForInStep PUnit)) :=
    .bind (rowsSteady_of_steady
      (steady_onMatrix (ConstraintMatrix.along_setRowActivePosition r _))) fun _ => .pure
  refine .get fun lp => .ite .throw_bind ?_
  split
  · exact .pure
  · refine .bind (.modify fun lp => ⟨_, refl _⟩) fun _ => ?_
    refine .bind (.forIn (fun r _ => ?_) _) fun _ => ?_
    · exact hmove r none
    refine .bind (.forIn (fun x _ => ?_) _) fun _ => ?_
    · exact hmove x.1 (some x.2)
    refine .bind (.forIn (fun r _ => ?_) _) fun _ => rowsSteady_of_steady (steady_changedRows _)
    exact .bind (rowsSteady_of_steady (steady_releaseRow (Set.mem_univ r))) fun _ => .pure

end Relaxation

end CertifiedLp
