import Mathlib
import CertifiedLp.Proofs.Along
import CertifiedLp.Proofs.Forgetting
import CertifiedLp.Relaxation.Dive
import CertifiedLp.Relaxation.Solve

/-!
# Operations that edit nothing

Putting a solution aside and bringing it back, the activities of rows, and a solve after the solver
was brought up to date: all of them write values of a solution and what is known about it, and
configure and run the solver, but leave alone what the columns and rows say, the lists and the
queues. A solve does not touch a solution that was put aside either, nor the cutoff bound. What the
calls of the solver leave alone is a parameter.
-/

namespace CertifiedLp

/-- The calls that configure and run a solver relate its states in a given way. -/
structure Solver.Respects {σ : Type} [Solver σ] (S : σ → σ → Prop) : Prop where
  setBasis (basis : Basis) : Along S (Solver.setBasis basis)
  setInt (parameter : IntParameter) (value : Int) : Along S (Solver.setInt parameter value)
  setReal (parameter : RealParameter) (value : Extended) : Along S (Solver.setReal parameter value)
  solvePrimal : Along S Solver.solvePrimal
  solveDual : Along S Solver.solveDual
  restore (snapshot : Solver.Snapshot σ) : Along S (Solver.restore snapshot)

namespace Relaxation

variable {σ : Type} [Solver σ] {S : σ → σ → Prop} {p : Prop} {lp t : Relaxation σ} {α : Type}

/-- The last solution does not belong to the linear program any more. -/
structure Obsolete (lp : Relaxation σ) : Prop where
  solved : lp.flags.solved = false
  status : lp.status = .notSolved

/-- The status and what it is about are the same, unless they may be forgotten and are, and the
solution that was put aside and the cutoff bound are the same. -/
structure Remembers (p : Prop) (lp t : Relaxation σ) : Prop where
  outcome : (t.flags.solved = lp.flags.solved ∧ t.status = lp.status) ∨ (p ∧ t.Obsolete)
  stored : t.stored = lp.stored
  cutoff : t.cutoff = lp.cutoff

/-- Nothing differs but the values of a solution and what is known about it, the cutoff bound, and
the solver. -/
structure Unedited (S : σ → σ → Prop) (lp t : Relaxation σ) : Prop where
  matrix : t.matrix.without .values = lp.matrix.without .values
  solver : S lp.solver t.solver
  settings : t.settings = lp.settings
  columns : t.columns = lp.columns
  rows : t.rows = lp.rows
  changedColumns : t.changedColumns = lp.changedColumns
  changedRows : t.changedRows = lp.changedRows
  pseudo : t.pseudo = lp.pseudo
  loose : t.loose = lp.loose
  dive : t.dive = lp.dive

/-- Nothing differs but the values of the last solve and what is known about it, and the solver. -/
structure Consulted (S : σ → σ → Prop) (lp t : Relaxation σ) : Prop extends Unedited S lp t where
  results : t.matrix.without .results = lp.matrix.without .results
  stored : t.stored = lp.stored
  cutoff : t.cutoff = lp.cutoff

/-- Moreover no status is made up. -/
structure Weighed (p : Prop) (S : σ → σ → Prop) (lp t : Relaxation σ) : Prop
    extends Consulted S lp t, Remembers p lp t

theorem unedited_of_consulted {x : RelaxationM σ α} (h : Along (Consulted S) x) :
    Along (Unedited S) x := h.mono fun _ _ => Consulted.toUnedited

theorem consulted_of_weighed {x : RelaxationM σ α} (h : Along (Weighed True S) x) :
    Along (Consulted S) x := h.mono fun _ _ => Weighed.toConsulted

theorem remembers_of_eq (hsolved : t.flags.solved = lp.flags.solved) (hstatus : t.status = lp.status)
    (hstored : t.stored = lp.stored) (hcutoff : t.cutoff = lp.cutoff) : Remembers p lp t :=
  ⟨.inl ⟨hsolved, hstatus⟩, hstored, hcutoff⟩

instance : IsPreorder (Relaxation σ) (Remembers p) where
  refl _ := remembers_of_eq rfl rfl rfl rfl
  trans _ _ _ h h' := by
    refine ⟨?_, h'.stored.trans h.stored, h'.cutoff.trans h.cutoff⟩
    rcases h'.outcome with ⟨hsolved, hstatus⟩ | hobsolete
    · refine h.outcome.imp (fun h => ⟨hsolved.trans h.1, hstatus.trans h.2⟩) fun h => ⟨h.1, ?_⟩
      exact ⟨hsolved.trans h.2.solved, hstatus.trans h.2.status⟩
    · exact .inr hobsolete

theorem weighed_onSolver {x : SolverM σ α} (h : Along S x) :
    Along (Weighed p S) (onSolver x) := fun lp => by
  have hrest {s : σ} (hs : S lp.solver s) : Weighed p S lp { lp with solver := s } :=
    ⟨⟨⟨rfl, hs, rfl, rfl, rfl, rfl, rfl, rfl, rfl, rfl⟩, rfl, rfl, rfl⟩, .inl ⟨rfl, rfl⟩⟩
  exact ends_onSolver.mpr ((h lp.solver).mono (fun _ _ hs => hrest hs) fun _ _ hs => hrest hs)

theorem consulted_onSolver {x : SolverM σ α} (h : Along S x) : Along (Consulted S) (onSolver x) :=
  consulted_of_weighed (weighed_onSolver h)

theorem weighed_setInt (h : Solver.Respects S) (parameter : IntParameter) (value : Int) :
    Along (Weighed p S) (onSolver (Solver.setInt parameter value) : RelaxationM σ Unit) :=
  weighed_onSolver (h.setInt parameter value)

theorem weighed_setReal (h : Solver.Respects S) (parameter : RealParameter) (value : Extended) :
    Along (Weighed p S) (onSolver (Solver.setReal parameter value) : RelaxationM σ Unit) :=
  weighed_onSolver (h.setReal parameter value)

theorem unedited_onSolver {x : SolverM σ α} (h : Along S x) : Along (Unedited S) (onSolver x) :=
  unedited_of_consulted (consulted_onSolver h)

variable [IsPreorder σ S]

instance : IsPreorder (Relaxation σ) (Unedited S) where
  refl _ := ⟨rfl, refl _, rfl, rfl, rfl, rfl, rfl, rfl, rfl, rfl⟩
  trans _ _ _ h h' := {
    matrix := h'.matrix.trans h.matrix
    solver := IsTrans.trans _ _ _ h.solver h'.solver
    settings := h'.settings.trans h.settings
    columns := h'.columns.trans h.columns
    rows := h'.rows.trans h.rows
    changedColumns := h'.changedColumns.trans h.changedColumns
    changedRows := h'.changedRows.trans h.changedRows
    pseudo := h'.pseudo.trans h.pseudo
    loose := h'.loose.trans h.loose
    dive := h'.dive.trans h.dive }

instance : IsPreorder (Relaxation σ) (Consulted S) where
  refl lp := ⟨refl lp, rfl, rfl, rfl⟩
  trans _ _ _ h h' := ⟨IsTrans.trans _ _ _ h.toUnedited h'.toUnedited, h'.results.trans h.results,
    h'.stored.trans h.stored, h'.cutoff.trans h.cutoff⟩

instance : IsPreorder (Relaxation σ) (Weighed p S) where
  refl lp := ⟨refl lp, .inl ⟨rfl, rfl⟩⟩
  trans _ _ _ h h' := by
    have hremembers := IsTrans.trans _ _ _ h.toRemembers h'.toRemembers
    exact ⟨IsTrans.trans _ _ _ h.toConsulted h'.toConsulted, hremembers.outcome⟩

/-! ## Single steps -/

theorem unedited_status (lp : Relaxation σ) (status : LpStatus) (flags : Flags)
    (solverObjective cutoff : Extended) (nrSolves : Nat) (stored : Option StoredSolution) :
    Unedited S lp { lp with status, flags, solverObjective, cutoff, nrSolves, stored } :=
  ⟨rfl, refl _, rfl, rfl, rfl, rfl, rfl, rfl, rfl, rfl⟩

theorem unedited_matrix {m : ConstraintMatrix} (h : m.without .values = lp.matrix.without .values) :
    Unedited S lp { lp with matrix := m } :=
  ⟨h, refl _, rfl, rfl, rfl, rfl, rfl, rfl, rfl, rfl⟩

theorem unedited_modifyColumn (c : ColumnRef) {f : Column → Column}
    (h : ∀ column, Forgetting.values.column (f column) = Forgetting.values.column column) :
    Along (Unedited S) (modifyMatrix (·.modifyColumn c f) : RelaxationM σ Unit) :=
  fun lp => unedited_matrix (ConstraintMatrix.without_modifyColumn lp.matrix c h)

theorem unedited_updateRow (r : RowRef) {f : Row → Row}
    (h : ∀ row, Forgetting.values.row (f row) = Forgetting.values.row row) :
    Along (Unedited S) (updateRow r f : RelaxationM σ Unit) := fun lp => by
  rw [updateRow, ends_onMatrix, ConstraintMatrix.ends_updateRow_iff]
  exact ⟨fun _ => unedited_matrix (ConstraintMatrix.without_modifyRow lp.matrix r h),
    fun _ => refl lp⟩

theorem consulted_status (lp : Relaxation σ) (status : LpStatus) (flags : Flags)
    (solverObjective : Extended) (nrSolves : Nat) :
    Consulted S lp { lp with status, flags, solverObjective, nrSolves } :=
  ⟨unedited_status lp status flags solverObjective lp.cutoff nrSolves lp.stored, rfl, rfl, rfl⟩

theorem consulted_matrix {m : ConstraintMatrix} (h : m.without .results = lp.matrix.without .results) :
    Consulted S lp { lp with matrix := m } :=
  ⟨unedited_matrix (ConstraintMatrix.without_eq_of_without (fun _ => rfl) (fun _ => rfl) h), h, rfl, rfl⟩

theorem weighed_modifyColumn (c : ColumnRef) {f : Column → Column}
    (h : ∀ column, Forgetting.results.column (f column) = Forgetting.results.column column) :
    Along (Weighed p S) (modifyMatrix (·.modifyColumn c f) : RelaxationM σ Unit) := fun lp =>
  ⟨consulted_matrix (ConstraintMatrix.without_modifyColumn lp.matrix c h), .inl ⟨rfl, rfl⟩⟩

theorem weighed_updateRow (r : RowRef) {f : Row → Row}
    (h : ∀ row, Forgetting.results.row (f row) = Forgetting.results.row row) :
    Along (Weighed p S) (updateRow r f : RelaxationM σ Unit) := fun lp => by
  rw [updateRow, ends_onMatrix, ConstraintMatrix.ends_updateRow_iff]
  refine ⟨fun _ => ⟨?_, .inl ⟨rfl, rfl⟩⟩, fun _ => refl lp⟩
  exact consulted_matrix (ConstraintMatrix.without_modifyRow lp.matrix r h)

/-! ## Flags -/

theorem weighed_markUnsolved : Along (Weighed True S) (markUnsolved : RelaxationM σ Unit) :=
  .modify fun _ => ⟨consulted_status .., .inr ⟨trivial, rfl, rfl⟩⟩

theorem consulted_markUnsolved : Along (Consulted S) (markUnsolved : RelaxationM σ Unit) :=
  consulted_of_weighed weighed_markUnsolved

theorem unedited_markUnsolved : Along (Unedited S) (markUnsolved : RelaxationM σ Unit) :=
  unedited_of_consulted consulted_markUnsolved

theorem unedited_losePrimal : Along (Unedited S) (losePrimal : RelaxationM σ Unit) :=
  .modify fun _ => unedited_status ..

theorem unedited_loseDual : Along (Unedited S) (loseDual : RelaxationM σ Unit) :=
  .modify fun _ => unedited_status ..

theorem unedited_setCutoff (cutoff : Extended) :
    Along (Unedited S) (setCutoff cutoff : RelaxationM σ Unit) := by
  have hset : Along (Unedited S) (modify ({ · with cutoff }) : RelaxationM σ Unit) :=
    .modify fun _ => unedited_status ..
  exact .get fun _ => .ite (unedited_markUnsolved.bind fun _ => hset) hset

/-- If a coefficient of the active linear program was edited, then its solution is obsolete. -/
theorem unedited_coefficientEdited (c : ColumnRef) (r : RowRef) :
    Along (Unedited S) (coefficientEdited c r : RelaxationM σ Unit) := by
  refine .bind (along_getColumn c) fun _ => .ite ?_ .pure
  refine .bind (along_getRow r) fun _ => .ite ?_ .pure
  refine .bind unedited_losePrimal fun _ => ?_
  exact .bind unedited_loseDual fun _ => unedited_markUnsolved

/-! ## Solutions -/

theorem unedited_storeSolution : Along (Unedited S) (storeSolution : RelaxationM σ Unit) := by
  refine .get fun lp => ?_
  refine .bind (.forIn_array (fun c _ => ?_) _) fun _ => ?_
  · exact .bind (unedited_modifyColumn c fun _ => rfl) fun _ => .pure
  refine .bind (.forIn_array (fun r _ => ?_) _) fun _ => ?_
  · exact .bind (unedited_updateRow r fun _ => rfl) fun _ => .pure
  exact .modify fun _ => unedited_status ..

theorem unedited_restoreSolution : Along (Unedited S) (restoreSolution : RelaxationM σ Unit) := by
  refine .get fun lp => ?_
  split
  · exact .throw
  refine Along.bind (.modify fun _ => unedited_status ..) fun _ => ?_
  refine .bind (.forIn_array (fun c _ => ?_) _) fun _ => ?_
  · refine .bind (unedited_modifyColumn c fun column => ?_) fun _ => .pure
    rw [Column.restore]
    split <;> rfl
  refine .bind (.forIn_array (fun r _ => ?_) _) fun _ => ?_
  · refine .bind (unedited_updateRow r fun row => ?_) fun _ => .pure
    rw [Row.restore]
    split <;> rfl
  exact .modify fun _ => unedited_status ..

theorem weighed_rowActivity (r : RowRef) :
    Along (Weighed p S) (rowActivity r : RelaxationM σ Extended) := by
  refine .get fun _ => .ite .throw_bind ?_
  refine .bind (along_getRow r) fun _ => .ite .pure ?_
  exact .bind (weighed_updateRow r fun _ => rfl) fun _ => .pure

theorem weighed_rowFeasibility (r : RowRef) :
    Along (Weighed p S) (rowFeasibility r : RelaxationM σ Extended) := by
  refine .bind (weighed_rowActivity r) fun _ => ?_
  exact .bind (along_getRow r) fun _ => .pure

theorem unedited_rowActivity (r : RowRef) :
    Along (Unedited S) (rowActivity r : RelaxationM σ Extended) :=
  unedited_of_consulted (consulted_of_weighed (weighed_rowActivity r))

theorem unedited_rowFeasibility (r : RowRef) :
    Along (Unedited S) (rowFeasibility r : RelaxationM σ Extended) :=
  unedited_of_consulted (consulted_of_weighed (weighed_rowFeasibility r))

/-! ## Certificates -/

theorem weighed_writeIf (write : Bool) (a : Approximation) :
    Along (Weighed p S) (writeIf write a : RelaxationM σ Approximation) :=
  .ite (.get fun _ => .pure) .pure

/-- The values of a solution do not say what its status is. -/
theorem weighed_acceptSolution (a : Approximation) (write : Bool) (limit : Option Extended) :
    Along (Weighed p S) (acceptSolution a write limit : RelaxationM σ (Bool × Approximation)) := by
  refine .bind (along_askSolver _) fun _ => .bind (along_askSolver _) fun _ => .get fun _ => ?_
  refine .bind (.foldlM (fun _ line => ?_) _) fun _ => ?_
  · refine .bind (along_getRow line.1) fun _ => .get fun _ => ?_
    exact .bind (weighed_updateRow line.1 fun _ => rfl) fun _ => .pure
  refine .bind (.foldlM (fun _ line => ?_) _) fun _ => ?_
  · exact .get fun _ => .bind (weighed_modifyColumn line.1 fun _ => rfl) fun _ => .pure
  refine Along.bind (.modify fun _ => ⟨consulted_status .., .inl ⟨rfl, rfl⟩⟩) fun _ => ?_
  exact .bind (weighed_writeIf write a) fun _ => .pure

theorem weighed_acceptFarkas (a : Approximation) (write : Bool) :
    Along (Weighed p S) (acceptFarkas a write : RelaxationM σ (Bool × Approximation)) := by
  refine .bind (along_askSolver _) fun _ => .get fun lp => ?_
  refine .bind (.foldlM (fun _ line => ?_) _) fun _ => ?_
  · refine .bind (along_getRow line.1) fun _ => ?_
    exact .bind (weighed_updateRow line.1 fun _ => rfl) fun _ => .pure
  refine .bind (.forIn (fun line _ => ?_) _) fun _ => ?_
  · exact .bind (weighed_modifyColumn line.1 fun _ => rfl) fun _ => .pure
  refine Along.bind (.modify fun _ => ⟨consulted_status .., .inl ⟨rfl, rfl⟩⟩) fun _ => ?_
  exact .bind (weighed_writeIf write a) fun _ => .pure

/-! ## Running the solver -/

/-- A call of the solver, also if it fails. -/
theorem weighed_succeeds {call : SolverM σ Unit} (hcall : Along S call) :
    Along (Weighed p S) (succeeds call : RelaxationM σ Bool) :=
  .tryCatch (.bind (weighed_onSolver hcall) fun _ => .pure) fun _ => .pure

section Running

variable (h : Solver.Respects S)

include h

theorem weighed_chooseStart (a : Approximation) :
    Along (Weighed p S) (chooseStart a : RelaxationM σ Unit) := by
  refine .get fun lp => ?_
  dsimp only
  split
  · refine .bind (weighed_onSolver (h.setBasis _)) fun _ => ?_
    exact weighed_setInt h _ _
  · exact weighed_setInt h _ _

theorem weighed_runSolver : Along (Weighed p S) (runSolver : RelaxationM σ Bool) := by
  refine .bind (weighed_succeeds h.solveDual) fun _ => .ite .pure ?_
  exact .bind (weighed_setInt h _ _) fun _ => weighed_succeeds h.solvePrimal

theorem weighed_confirmObjectiveLimit (limit : Extended) :
    Along (Weighed True S) (confirmObjectiveLimit limit : RelaxationM σ Answer) := by
  refine .bind (along_askSolver _) fun _ => ?_
  refine .bind (along_askSolver _) fun _ => ?_
  refine .bind (along_askSolver _) fun _ => ?_
  -- the single iteration without a limit, and the parameters that it needs
  refine .bind (weighed_setReal h _ _) fun _ => ?_
  refine .bind (weighed_setInt h _ _) fun _ => ?_
  refine .bind (weighed_setInt h _ _) fun _ => ?_
  refine .bind (weighed_setInt h _ _) fun _ => ?_
  refine .bind (weighed_succeeds h.solveDual) fun _ => ?_
  -- the parameters as they were
  refine .bind (weighed_setReal h _ _) fun _ => ?_
  refine .bind (weighed_setInt h _ _) fun _ => ?_
  refine .bind (weighed_setInt h _ _) fun _ => ?_
  refine .bind (weighed_setInt h _ _) fun _ => .get fun _ => ?_
  split
  · exact .pure
  · exact .pure
  · exact .pure
  · exact .pure
  · exact .bind weighed_markUnsolved fun _ => .throw

theorem weighed_takeAnswer (limit : Extended) :
    Along (Weighed True S) (takeAnswer limit : RelaxationM σ Answer) := by
  refine .get fun lp => ?_
  split
  · exact .bind weighed_markUnsolved fun _ => .throw
  · exact .bind (along_askSolver _) fun _ => .ite (weighed_confirmObjectiveLimit h limit) .pure
  · exact .pure

omit h in
theorem consulted_certify (answer : Answer) (limit : Extended) (a : Approximation) (write : Bool) :
    Along (Consulted S) (certify answer limit a write :
      RelaxationM σ (Option Bool × Approximation)) := by
  have hsolution (limit : Option Extended) := consulted_of_weighed (S := S)
    (weighed_acceptSolution a write limit)
  cases answer with
  | optimal =>
    refine .bind (hsolution none) fun _ => .get fun _ => .ite ?_ .pure
    exact Along.bind (.modify fun _ => consulted_status ..) fun _ => .pure
  | objectiveLimit => exact .bind (hsolution (some limit)) fun _ => .pure
  | infeasible =>
    exact .bind (consulted_of_weighed (weighed_acceptFarkas a write)) fun _ => .pure
  | unbounded => exact .pure
  | iterationLimit => exact .pure
  | timeLimit => exact .pure

omit h in
theorem consulted_conclude (answer : Answer) (limit : Extended) (a : Approximation) (write : Bool) :
    Along (Consulted S) (conclude answer limit a write :
      RelaxationM σ (SolveResult × Approximation)) := by
  refine Along.bind (.modify fun _ => consulted_status ..) fun _ => ?_
  refine .bind (consulted_certify answer limit a write) fun found => .get fun lp => ?_
  split
  · exact .bind consulted_markUnsolved fun _ => .pure
  · exact .pure

/-- What a solve does after the solver was brought up to date. -/
def solveSynced (write : Bool) (a : Approximation) :
    RelaxationM σ (SolveResult × Approximation) := do
  match remainingTime? (← get).settings.timeLimit with
  | none =>
    modify fun lp => { lp with status := .timeLimit, flags := { lp.flags with solved := true } }
    return (⟨.timeLimit, false, false, false⟩, a)
  | some time =>
    onSolver (Solver.setReal .timeLimit time)
    chooseStart a
    let limit := (← get).objectiveLimit
    onSolver (Solver.setReal .objectiveLimit limit)
    onSolver (Solver.setInt .iterationLimit
      (iterationLimitCode (← get).settings.iterationLimit))
    if ← runSolver then
      modify fun lp => { lp with nrSolves := lp.nrSolves + 1 }
      let answer ← takeAnswer limit
      let (result, a) ← conclude answer limit a write
      let lp ← get
      if write then return (result, { a with status := lp.status, solved := lp.flags.solved })
      else return (result, a)
    else
      modify fun lp => { lp with status := .error, flags := { lp.flags with solved := false } }
      return (⟨.error, true, false, false⟩, a)

omit h in
theorem solveAnd_eq (write : Bool) (a : Approximation) :
    (solveAnd write a : RelaxationM σ (SolveResult × Approximation)) =
      (do sync; solveSynced write a) := rfl

theorem consulted_solveSynced (write : Bool) (a : Approximation) :
    Along (Consulted S) (solveSynced write a : RelaxationM σ (SolveResult × Approximation)) := by
  refine .get fun lp => ?_
  split
  · exact Along.bind (.modify fun _ => consulted_status ..) fun _ => .pure
  refine .bind (consulted_of_weighed (weighed_setReal h _ _)) fun _ => ?_
  refine .bind (consulted_of_weighed (weighed_chooseStart h a)) fun _ => .get fun lp => ?_
  refine .bind (consulted_of_weighed (weighed_setReal h _ _)) fun _ => .get fun _ => ?_
  refine .bind (consulted_of_weighed (weighed_setInt h _ _)) fun _ => ?_
  refine .bind (consulted_of_weighed (weighed_runSolver h)) fun solved => .ite ?_ ?_
  · refine Along.bind (.modify fun _ => consulted_status ..) fun _ => ?_
    refine .bind (consulted_of_weighed (weighed_takeAnswer h _)) fun answer => ?_
    exact .bind (consulted_conclude _ _ _ _) fun _ => .get fun _ => .ite .pure .pure
  · exact Along.bind (.modify fun _ => consulted_status ..) fun _ => .pure

theorem unedited_solveSynced (write : Bool) (a : Approximation) :
    Along (Unedited S) (solveSynced write a : RelaxationM σ (SolveResult × Approximation)) :=
  unedited_of_consulted (consulted_solveSynced h write a)

end Running

end Relaxation

end CertifiedLp
