import Mathlib
import CertifiedLp.Proofs.Matrix.Blindness
import CertifiedLp.Relaxation.Sync

/-!
# Informing the solver

To bring the solver up to date links entries, notes what the solver was told of the lines and where it
has them, and declares the solution obsolete. Nothing else of a relaxation is touched, whether the
solver accepts all that it is told or not. What the calls of the solver leave alone is a parameter.
-/

namespace CertifiedLp

namespace ConstraintMatrix

/-- Coefficients are part of what the solver is told. -/
theorem blindToEntries_contact : BlindToEntries (SameBut .contact) where
  column m c _ hf := sameBut_of_without (without_modifyColumn m c fun column => by rw [hf]; rfl)
  row m r _ hf := sameBut_of_without (without_modifyRow m r fun row => by rw [hf]; rfl)

end ConstraintMatrix

/-- The calls that bring a solver up to date relate its states in a given way. -/
structure Solver.Updates {σ : Type} [Solver σ] (S : σ → σ → Prop) : Prop where
  addColumns (batch : ColumnBatch) : Along S (Solver.addColumns batch)
  addRows (batch : RowBatch) : Along S (Solver.addRows batch)
  deleteColumns (first last : Nat) : Along S (Solver.deleteColumns first last)
  deleteRows (first last : Nat) : Along S (Solver.deleteRows first last)
  changeObjective (columns : Array Nat) (objective : Array Extended) :
    Along S (Solver.changeObjective columns objective)
  changeBounds (columns : Array Nat) (lower upper : Array Extended) :
    Along S (Solver.changeBounds columns lower upper)
  changeSides (rows : Array Nat) (lhs rhs : Array Extended) :
    Along S (Solver.changeSides rows lhs rhs)

namespace Relaxation

open ConstraintMatrix (SameBut sameBut_of_lines sameBut_of_without)

variable {σ : Type} [Solver σ] {S : σ → σ → Prop} {lp t : Relaxation σ} {α : Type}

/-- Nothing differs but what the solver was told, the solver itself, and what is known about the
solution, which may be obsolete. -/
structure Informed (S : σ → σ → Prop) (lp t : Relaxation σ) : Prop where
  matrix : SameBut .contact lp.matrix t.matrix
  solver : S lp.solver t.solver
  outcome : (t.flags.solved = lp.flags.solved ∧ t.status = lp.status) ∨
    (t.flags.solved = false ∧ t.status = .notSolved)
  settings : t.settings = lp.settings
  columns : t.columns = lp.columns
  rows : t.rows = lp.rows
  solverObjective : t.solverObjective = lp.solverObjective
  pseudo : t.pseudo = lp.pseudo
  loose : t.loose = lp.loose
  cutoff : t.cutoff = lp.cutoff
  nrSolves : t.nrSolves = lp.nrSolves
  stored : t.stored = lp.stored
  dive : t.dive = lp.dive

theorem informed_onSolver {x : SolverM σ α} (h : Along S x) :
    Along (Informed S) (onSolver x) := fun lp => by
  have hrest {s : σ} (hs : S lp.solver s) : Informed S lp { lp with solver := s } :=
    ⟨refl _, hs, .inl ⟨rfl, rfl⟩, rfl, rfl, rfl, rfl, rfl, rfl, rfl, rfl, rfl, rfl⟩
  exact ends_onSolver.mpr ((h lp.solver).mono (fun _ _ hs => hrest hs) fun _ _ hs => hrest hs)

variable [IsPreorder σ S]

instance : IsPreorder (Relaxation σ) (Informed S) where
  refl _ := ⟨refl _, refl _, .inl ⟨rfl, rfl⟩, rfl, rfl, rfl, rfl, rfl, rfl, rfl, rfl, rfl, rfl⟩
  trans _ _ _ h h' := {
    matrix := IsTrans.trans _ _ _ h.matrix h'.matrix
    solver := IsTrans.trans _ _ _ h.solver h'.solver
    outcome := h'.outcome.elim (fun h' => h.outcome.imp
      (fun h => ⟨h'.1.trans h.1, h'.2.trans h.2⟩) fun h => ⟨h'.1.trans h.1, h'.2.trans h.2⟩) .inr
    settings := h'.settings.trans h.settings
    columns := h'.columns.trans h.columns
    rows := h'.rows.trans h.rows
    solverObjective := h'.solverObjective.trans h.solverObjective
    pseudo := h'.pseudo.trans h.pseudo
    loose := h'.loose.trans h.loose
    cutoff := h'.cutoff.trans h.cutoff
    nrSolves := h'.nrSolves.trans h.nrSolves
    stored := h'.stored.trans h.stored
    dive := h'.dive.trans h.dive }

/-! ## Single steps -/

theorem informed_matrix {m : ConstraintMatrix} (h : SameBut .contact lp.matrix m) :
    Informed S lp { lp with matrix := m } :=
  ⟨h, refl _, .inl ⟨rfl, rfl⟩, rfl, rfl, rfl, rfl, rfl, rfl, rfl, rfl, rfl, rfl⟩

/-- The queues say what the solver has to be told. -/
theorem informed_queues (lp : Relaxation σ) (changedColumns : Array ColumnRef)
    (changedRows : Array RowRef) : Informed S lp { lp with changedColumns, changedRows } :=
  ⟨refl _, refl _, .inl ⟨rfl, rfl⟩, rfl, rfl, rfl, rfl, rfl, rfl, rfl, rfl, rfl, rfl⟩

theorem informed_onMatrix {x : MatrixM α} (h : Along (SameBut .contact) x) :
    Along (Informed S) (onMatrix x : RelaxationM σ α) := fun lp =>
  ends_onMatrix.mpr ((h lp.matrix).mono (fun _ _ => informed_matrix) fun _ _ => informed_matrix)

theorem informed_modifyColumn (c : ColumnRef) {f : Column → Column}
    (h : ∀ column, Forgetting.contact.column (f column) = Forgetting.contact.column column) :
    Along (Informed S) (modifyMatrix (·.modifyColumn c f) : RelaxationM σ Unit) := fun lp =>
  informed_matrix (sameBut_of_without (lp.matrix.without_modifyColumn c h))

theorem informed_modifyRow (r : RowRef) {f : Row → Row}
    (h : ∀ row, Forgetting.contact.row (f row) = Forgetting.contact.row row) :
    Along (Informed S) (modifyMatrix (·.modifyRow r f) : RelaxationM σ Unit) := fun lp =>
  informed_matrix (sameBut_of_without (lp.matrix.without_modifyRow r h))

theorem informed_updateRow (r : RowRef) {f : Row → Row}
    (h : ∀ row, Forgetting.contact.row (f row) = Forgetting.contact.row row) :
    Along (Informed S) (updateRow r f : RelaxationM σ Unit) :=
  informed_onMatrix (ConstraintMatrix.along_updateRow_of_modifyRow fun m =>
    sameBut_of_without (m.without_modifyRow r h))

/-- A change of the matrix that leaves the lines alone. -/
theorem informed_solverLists (f : ConstraintMatrix → ConstraintMatrix)
    (h : ∀ m, (f m).columns = m.columns ∧ (f m).rows = m.rows) :
    Along (Informed S) (modifyMatrix f : RelaxationM σ Unit) := fun lp =>
  informed_matrix (sameBut_of_lines (h lp.matrix).1 (h lp.matrix).2)

theorem informed_markUnsolved : Along (Informed S) (markUnsolved : RelaxationM σ Unit) :=
  .modify fun _ => ⟨refl _, refl _, .inr ⟨rfl, rfl⟩, rfl, rfl, rfl, rfl, rfl, rfl, rfl, rfl, rfl, rfl⟩

theorem informed_losePrimal : Along (Informed S) (losePrimal : RelaxationM σ Unit) :=
  .modify fun _ => ⟨refl _, refl _, .inl ⟨rfl, rfl⟩, rfl, rfl, rfl, rfl, rfl, rfl, rfl, rfl, rfl, rfl⟩

theorem informed_loseDual : Along (Informed S) (loseDual : RelaxationM σ Unit) :=
  .modify fun _ => ⟨refl _, refl _, .inl ⟨rfl, rfl⟩, rfl, rfl, rfl, rfl, rfl, rfl, rfl, rfl, rfl, rfl⟩

section Stages

variable (hS : Solver.Updates S)

include hS

/-! ## What goes -/

theorem informed_syncDeletedColumns :
    Along (Informed S) (syncDeletedColumns : RelaxationM σ Unit) := by
  have hfirst (first : Nat) : Along (Informed S)
      (modifyMatrix ({ · with firstChangedColumn := first }) : RelaxationM σ Unit) :=
    informed_solverLists _ fun _ => ⟨rfl, rfl⟩
  refine .get fun lp => .ite ?_ (hfirst _)
  refine .bind (informed_onSolver (hS.deleteColumns _ _)) fun _ => ?_
  refine .bind (informed_solverLists _ fun _ => ⟨rfl, rfl⟩) fun _ => ?_
  refine .bind (.forIn_array (fun c _ => ?_) _) fun _ => ?_
  · exact .bind (informed_modifyColumn c fun _ => rfl) fun _ => .pure
  exact .bind informed_markUnsolved fun _ => hfirst _

theorem informed_syncDeletedRows :
    Along (Informed S) (syncDeletedRows : RelaxationM σ Unit) := by
  have hfirst (first : Nat) : Along (Informed S)
      (modifyMatrix ({ · with firstChangedRow := first }) : RelaxationM σ Unit) :=
    informed_solverLists _ fun _ => ⟨rfl, rfl⟩
  refine .get fun lp => .ite ?_ (hfirst _)
  refine .bind (informed_onSolver (hS.deleteRows _ _)) fun _ => ?_
  refine .bind (informed_solverLists _ fun _ => ⟨rfl, rfl⟩) fun _ => ?_
  refine .bind (.forIn_array (fun r _ => ?_) _) fun _ => ?_
  · exact .bind (informed_modifyRow r fun _ => rfl) fun _ => .pure
  exact .bind informed_markUnsolved fun _ => hfirst _

/-! ## What changes -/

theorem informed_syncChangedColumns :
    Along (Informed S) (syncChangedColumns : RelaxationM σ Unit) := by
  refine .get fun lp => ?_
  have htold : Along (Informed S) (do
      for c in lp.changedColumns do
        modifyMatrix (·.modifyColumn c fun column => { column with sent := column.spec })
      modify ({ · with changedColumns := #[] }) : RelaxationM σ Unit) := by
    refine .bind (.forIn_array (fun c _ => ?_) _) fun _ => .modify fun _ => informed_queues ..
    exact .bind (informed_modifyColumn c fun _ => rfl) fun _ => .pure
  have hbounds (columns : Array Nat) (lower upper : Array Extended) :
      Along (Informed S) (onSolver (Solver.changeBounds columns lower upper)) :=
    informed_onSolver (hS.changeBounds columns lower upper)
  -- the objective is told before the bounds, and each of them only if there is something to tell
  refine .ite (.bind (informed_onSolver (hS.changeObjective _ _)) fun _ => ?_) ?_
  · refine .bind informed_markUnsolved fun _ => ?_
    exact .ite (.bind (hbounds _ _ _) fun _ => .bind informed_markUnsolved fun _ => htold) htold
  · exact .ite (.bind (hbounds _ _ _) fun _ => .bind informed_markUnsolved fun _ => htold) htold

theorem informed_syncChangedRows :
    Along (Informed S) (syncChangedRows : RelaxationM σ Unit) := by
  refine .get fun lp => ?_
  have htold : Along (Informed S) (do
      for r in lp.changedRows do
        modifyMatrix (·.modifyRow r fun row => { row with sent := row.spec })
      modify ({ · with changedRows := #[] }) : RelaxationM σ Unit) := by
    refine .bind (.forIn_array (fun r _ => ?_) _) fun _ => .modify fun _ => informed_queues ..
    exact .bind (informed_modifyRow r fun _ => rfl) fun _ => .pure
  refine .ite (.bind (informed_onSolver (hS.changeSides _ _ _)) fun _ => ?_) htold
  exact .bind informed_markUnsolved fun _ => htold

/-! ## What is new -/

theorem informed_syncAddedColumns :
    Along (Informed S) (syncAddedColumns : RelaxationM σ Unit) := by
  refine .get fun lp => .ite ?_ .pure
  refine .bind (.foldlM (fun batch c => ?_) _) fun batch => ?_
  · refine .bind (informed_onMatrix (ConstraintMatrix.blindToEntries_contact.linkColumn c)) fun _ => ?_
    exact .get fun _ => .pure
  refine .bind (informed_onSolver (hS.addColumns batch)) fun _ => ?_
  refine .bind (.forIn (fun x _ => ?_) _) fun _ => ?_
  · refine .bind (fun lp => informed_matrix ?_) fun _ => .pure
    exact IsTrans.trans _ (lp.matrix.modifyColumn x.1 (·.attach x.2)) _
      (sameBut_of_without (lp.matrix.without_modifyColumn x.1 fun _ => rfl)) (sameBut_of_lines rfl rfl)
  refine .bind (informed_solverLists _ fun _ => ⟨rfl, rfl⟩) fun _ => ?_
  exact .bind informed_loseDual fun _ => informed_markUnsolved

theorem informed_syncAddedRows :
    Along (Informed S) (syncAddedRows : RelaxationM σ Unit) := by
  refine .get fun lp => .ite ?_ .pure
  refine .bind (.foldlM (fun batch r => ?_) _) fun batch => ?_
  · refine .bind (informed_onMatrix (ConstraintMatrix.blindToEntries_contact.linkRow r)) fun _ => ?_
    exact .get fun _ => .bind (along_getRow r) fun _ => .pure
  refine .bind (informed_onSolver (hS.addRows batch)) fun _ => ?_
  refine .bind (.forIn (fun x _ => ?_) _) fun _ => ?_
  · refine .bind (informed_updateRow x.1 fun _ => rfl) fun _ => ?_
    exact .bind (informed_solverLists _ fun _ => ⟨rfl, rfl⟩) fun _ => .pure
  refine .bind (informed_solverLists _ fun _ => ⟨rfl, rfl⟩) fun _ => ?_
  exact .bind informed_losePrimal fun _ => informed_markUnsolved

/-- What the solver is told changes nothing else. -/
theorem informed_sync : Along (Informed S) (sync : RelaxationM σ Unit) := by
  refine .get fun _ => .ite ?_ .pure
  refine .bind (informed_syncDeletedColumns hS) fun _ => ?_
  refine .bind (informed_syncDeletedRows hS) fun _ => ?_
  refine .bind (informed_syncChangedColumns hS) fun _ => ?_
  refine .bind (informed_syncChangedRows hS) fun _ => ?_
  refine .bind (informed_syncAddedColumns hS) fun _ => ?_
  refine .bind (informed_syncAddedRows hS) fun _ => ?_
  exact informed_solverLists _ fun _ => ⟨rfl, rfl⟩

end Stages

end Relaxation

end CertifiedLp
