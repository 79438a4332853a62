import Mathlib
import CertifiedLp.Proofs.Relaxation.Retaining
import CertifiedLp.Proofs.Relaxation.Rollback

/-!
# A solution that was put aside comes back

A dive can put the solution aside that it starts from. Nothing that is done during the dive touches
what was put aside, and at its end the same lines are active again. So the solution comes back: its
status, what is known about it, its objective value, and the values of the active columns and rows.
Activities that were up to date count as activities of the latest solve then. A proof of infeasibility
is not put aside, and is not brought back.
-/

namespace CertifiedLp

theorem Column.restore_of_stored {column : Column} {values : ColumnValues}
    (h : column.stored = some values) : column.restore = { column with values, stored := none } := by
  rw [restore, h]

/-- There is nothing left to bring back. -/
theorem Column.restore_restore (column : Column) : column.restore.restore = column.restore := by
  cases h : column.stored with
  | none =>
    have hsame : column.restore = column := by rw [restore, h]
    rw [hsame, hsame]
  | some values => rw [restore_of_stored h, restore]

namespace Row

/-- The values of a row, with an activity that was up to date counting for another solve. -/
def valuesAt (row : Row) (latest : Nat) : RowValues :=
  { row.values with activityStamp := row.values.activityStamp.map fun _ => latest }

theorem restore_of_stored {row : Row} {values : RowValues} (h : row.stored = some values)
    (latest : Nat) : row.restore latest = { row with
      values := { values with activityStamp := values.activityStamp.map fun _ => latest }
      stored := none } := by
  rw [restore, h]

theorem restore_restore (row : Row) (latest : Nat) :
    (row.restore latest).restore latest = row.restore latest := by
  cases h : row.stored with
  | none =>
    have hsame : row.restore latest = row := by rw [restore, h]
    rw [hsame, hsame]
  | some values => rw [restore_of_stored h, restore]

end Row

namespace Relaxation

variable {σ : Type} [Solver σ] {lp₀ lp t u : Relaxation σ} {problem : Problem} {dive : Dive σ}
variable {history edits actions : List Action} {stored : StoredSolution} {first : Nat}
variable {E : LpError → Relaxation σ → Prop}

/-! ## Changing many lines -/

/-- Columns are changed one after the other. It does not matter whether one is changed twice. -/
theorem ends_modifyColumns {f : Column → Column} (hf : ∀ column, f (f column) = f column)
    {columns : Array ColumnRef} (hcolumns : ∀ c ∈ columns, lp.matrix.Has (.column c)) :
    Ends (forIn columns PUnit.unit fun c _ => do
        modifyMatrix (·.modifyColumn c f)
        pure (ForInStep.yield PUnit.unit) : RelaxationM σ PUnit) lp
      (fun _ t => ∃ m, t = { lp with matrix := m } ∧ m.rows = lp.matrix.rows ∧
        ∀ c ∈ columns, m.column c = f (lp.matrix.column c)) E := by
  rw [← Array.forIn_toList]
  refine (Ends.forIn_list (fun done t => ∃ m, t = { lp with matrix := m } ∧
    m.rows = lp.matrix.rows ∧ m.columns.size = lp.matrix.columns.size ∧
      ∀ c, lp.matrix.Has (.column c) →
        m.column c = if c ∈ done then f (lp.matrix.column c) else lp.matrix.column c) ?_ ?_).mono_ok ?_
  · exact ⟨lp.matrix, rfl, rfl, rfl, fun c _ => by rw [if_neg List.not_mem_nil]⟩
  · rintro done c rest _ - ⟨m, rfl, hrows, hsize, hcolumn⟩
    rw [Ends.bind_iff, ends_modifyMatrix, Ends.pure_iff]
    refine ⟨rfl, m.modifyColumn c f, rfl, hrows, Array.size_modify.trans hsize, fun d hd => ?_⟩
    by_cases hdc : d = c
    · subst hdc
      have hhas : m.Has (.column d) := hd.trans_eq hsize.symm
      rw [ConstraintMatrix.column_modifyColumn_self hhas, hcolumn d hd,
        if_pos (List.mem_append_right _ List.mem_cons_self)]
      split
      · exact hf _
      · rfl
    · rw [ConstraintMatrix.column_modifyColumn_of_ne (Ne.symm hdc), hcolumn d hd]
      simp only [List.mem_append, List.mem_singleton, hdc, or_false]
  · rintro _ _ ⟨m, rfl, hrows, -, hcolumn⟩
    refine ⟨m, rfl, hrows, fun c hc => ?_⟩
    rw [hcolumn c (hcolumns c hc), if_pos (Array.mem_toList_iff.mpr hc)]

/-- Rows are changed one after the other. -/
theorem ends_updateRows {f : Row → Row} (hf : ∀ row, f (f row) = f row) (rows : Array RowRef) :
    Ends (forIn rows PUnit.unit fun r _ => do
        updateRow r f
        pure (ForInStep.yield PUnit.unit) : RelaxationM σ PUnit) lp
      (fun _ t => ∃ m, t = { lp with matrix := m } ∧ m.columns = lp.matrix.columns ∧
        ∀ r ∈ rows, m.row? r = (lp.matrix.row? r).map f) fun _ _ => True := by
  rw [← Array.forIn_toList]
  refine (Ends.forIn_list (fun done t => ∃ m, t = { lp with matrix := m } ∧
    m.columns = lp.matrix.columns ∧ ∀ r, m.row? r =
      if r ∈ done then (lp.matrix.row? r).map f else lp.matrix.row? r) ?_ ?_).mono_ok ?_
  · exact ⟨lp.matrix, rfl, rfl, fun r => by rw [if_neg List.not_mem_nil]⟩
  · rintro done r rest _ - ⟨m, rfl, hcolumns, hrow⟩
    rw [Ends.bind_iff, updateRow, ends_onMatrix, ConstraintMatrix.ends_updateRow_iff]
    refine ⟨fun _ => ?_, fun _ => trivial⟩
    refine ⟨rfl, m.modifyRow r f, rfl, hcolumns, fun s => ?_⟩
    rw [ConstraintMatrix.row?_modifyRow, hrow s]
    by_cases hsr : r = s
    · subst hsr
      rw [if_pos rfl, if_pos (List.mem_append_right _ List.mem_cons_self)]
      split
      · rw [Option.map_map]
        exact congrArg (Option.map · _) (funext hf)
      · rfl
    · rw [if_neg hsr]
      simp only [List.mem_append, List.mem_singleton, Ne.symm hsr, or_false]
  · rintro _ _ ⟨m, rfl, hcolumns, hrow⟩
    refine ⟨m, rfl, hcolumns, fun r hr => ?_⟩
    rw [hrow r, if_pos (Array.mem_toList_iff.mpr hr)]

/-! ## Putting aside -/

/-- The solution was put aside, in the relaxation and in its active lines. -/
structure PutAside (lp : Relaxation σ) : Prop where
  solution : lp.stored = some ⟨lp.status, lp.solverObjective, lp.flags⟩
  column : ∀ c ∈ lp.columns, (lp.matrix.column c).stored = some (lp.matrix.column c).values
  row : ∀ r ∈ lp.rows, ∀ row, lp.matrix.row? r = some row → row.stored = some row.values

theorem ends_storeSolution_putAside (hcolumns : ∀ c ∈ lp.columns, lp.matrix.Has (.column c)) :
    Ends storeSolution lp (fun _ t => t.PutAside ∧ t.flags = lp.flags) fun _ _ => True := by
  have hcolumnTwice (column : Column) : column.store.store = column.store := rfl
  have hrowTwice (row : Row) : row.store.store = row.store := rfl
  rw [storeSolution, Ends.bind_iff, Ends.get_iff, Ends.bind_iff]
  refine (ends_modifyColumns hcolumnTwice hcolumns).mono_ok ?_
  rintro _ _ ⟨m, rfl, -, hcolumn⟩
  rw [Ends.bind_iff]
  refine (ends_updateRows hrowTwice lp.rows).mono_ok ?_
  rintro _ _ ⟨m', rfl, hsame, hrow⟩
  refine ⟨⟨rfl, fun c hc => ?_, fun r hr row hrow' => ?_⟩, rfl⟩
  · have hstored : m'.column c = (lp.matrix.column c).store := by
      rw [← hcolumn c hc, ConstraintMatrix.column, hsame, ConstraintMatrix.column]
    change (m'.column c).stored = some (m'.column c).values
    rw [hstored, Column.store]
  · obtain ⟨row₀, -, rfl⟩ := Option.map_eq_some_iff.mp ((hrow r hr).symm.trans hrow')
    rfl

/-- A dive that starts from a solution puts it aside. -/
theorem Tracked.ends_startDive_solved (h : lp.Tracked) :
    Ends (startDive true) lp (fun _ t => t.flags.solved = true →
      t.PutAside ∧ ∃ dive, t.dive = some dive ∧ dive.stored = true) fun _ _ => True := by
  rw [startDive, Ends.bind_iff, Ends.get_iff, Ends.ite_iff]
  refine ⟨fun _ => trivial, fun _ => ?_⟩
  rw [Ends.bind_iff]
  refine (ends_sync h).mono ?_ fun _ _ _ => trivial
  rintro _ t ⟨ht, -⟩
  rw [Ends.bind_iff, ends_askSolver_iff]
  refine ⟨fun snapshot _ => ?_, fun _ _ => trivial⟩
  rw [Ends.bind_iff, Ends.get_iff, Ends.ite_iff]
  refine ⟨fun hsolved => ?_, fun hunsolved hsolved => ?_⟩
  · rw [Ends.bind_iff]
    refine (ends_storeSolution_putAside fun c hc => ht.coherent.has_of_mem hc).mono ?_ fun _ _ h => h
    rintro _ u ⟨haside, -⟩ -
    exact ⟨⟨haside.solution, haside.column, haside.row⟩, _, rfl, hsolved⟩
  · exact (hunsolved hsolved).elim

/-! ## The dive -/

theorem retained_undoDive (problem : Problem) (dive : Dive σ) :
    Along (Retained Set.univ) (undoDive problem dive : RelaxationM σ Unit) := by
  rw [undoDive_eq]
  refine .bind (admitsChanges_retained.undoEdits retained_shrinkRows problem dive) fun _ => ?_
  refine .bind (retained_of_informed (informed_sync updates_whatever)) fun _ => ?_
  exact retained_of_informed (informed_onSolver along_whatever)

theorem retained_solveAnd (write : Bool) (a : Approximation) : Along (Retained Set.univ)
    (solveAnd write a : RelaxationM σ (SolveResult × Approximation)) := by
  rw [solveAnd_eq]
  refine .bind (retained_of_informed (informed_sync updates_whatever)) fun _ => ?_
  exact (consulted_solveSynced respects_whatever write a).mono fun _ _ => Consulted.retained

/-- What may be done during a dive leaves alone what was put aside. -/
theorem retained_perform {a : Action} (ha : a.isDiveStep first = true) :
    Along (Retained Set.univ) (perform a : RelaxationM σ Unit) := by
  cases a with
  | createRow name spec => exact along_forgetful (retained_createRow name spec)
  | addRow r => exact retained_addRow (Set.mem_univ r)
  | changeObjective c objective => exact admitsChanges_retained.changeObjective c objective
  | changeBound c side value => exact admitsChanges_retained.changeBound c side value
  | changeSide r side value => exact admitsChanges_retained.changeSide r side value
  | edit c r e => exact retained_edit c r e
  | addCoefficientsInRow r coefficients =>
    exact retained_addCoefficientsInRow (Set.mem_univ r) coefficients
  | delayOrder r => exact retained_delayOrder (Set.mem_univ r)
  | forceOrder r => exact retained_forceOrder (Set.mem_univ r)
  | sync => exact retained_of_informed (informed_sync updates_whatever)
  | solve a => exact along_forgetful (.get fun _ => retained_solveAnd _ a)
  | solveAnd write a => exact along_forgetful (retained_solveAnd write a)
  | setIterationLimit limit => exact retained_modify fun _ => ⟨rfl, rfl⟩
  | _ => cases ha

theorem retained_performAll (lp : Relaxation σ)
    (hactions : ∀ a ∈ actions, a.isDiveStep first = true) :
    Retained Set.univ lp (lp.performAll actions) := by
  induction actions generalizing lp with
  | nil => exact refl lp
  | cons a rest ih =>
    have hstep := (retained_perform (hactions a List.mem_cons_self)).state lp
    exact IsTrans.trans _ _ _ hstep (ih _ fun b hb => hactions b (List.mem_cons_of_mem a hb))

/-! ## Bringing back -/

/-- What was put aside was brought back, for the lines that are active. -/
structure BroughtBack (stored : StoredSolution) (lp t : Relaxation σ) : Prop where
  status : t.status = stored.status
  flags : t.flags = stored.flags
  solverObjective : t.solverObjective = stored.objective
  nrSolves : t.nrSolves = lp.nrSolves
  column : ∀ c ∈ lp.columns, t.matrix.column c = (lp.matrix.column c).restore
  row : ∀ r ∈ lp.rows, t.matrix.row? r = (lp.matrix.row? r).map (·.restore lp.nrSolves)

theorem ends_restoreSolution (hcolumns : ∀ c ∈ lp.columns, lp.matrix.Has (.column c))
    (hstored : lp.stored = some stored) :
    Ends restoreSolution lp (fun _ t => BroughtBack stored lp t) fun _ _ => True := by
  have hcolumns' : ∀ c ∈ lp.columns,
      ({ lp with stored := none } : Relaxation σ).matrix.Has (.column c) := hcolumns
  have htwice (row : Row) : (row.restore lp.nrSolves).restore lp.nrSolves = row.restore lp.nrSolves :=
    row.restore_restore lp.nrSolves
  rw [Ends, run_restoreSolution hstored, ← Ends, Ends.bind_iff, restoreValues, Ends.bind_iff,
    Ends.modify_iff, Ends.bind_iff]
  refine (ends_modifyColumns Column.restore_restore hcolumns').mono_ok ?_
  rintro _ _ ⟨m, rfl, hrows, hcolumn⟩
  rw [Ends.bind_iff]
  refine (ends_updateRows htwice lp.rows).mono_ok ?_
  rintro _ _ ⟨m', rfl, hsame, hrow⟩
  refine ⟨rfl, rfl, rfl, rfl, fun c hc => ?_, fun r hr => ?_⟩
  · rw [← hcolumn c hc, ConstraintMatrix.column, hsame, ConstraintMatrix.column]
  · rw [hrow r hr, ConstraintMatrix.row?, hrows, ConstraintMatrix.row?]

theorem ends_closeDive_restored (hcolumns : ∀ c ∈ lp.columns, lp.matrix.Has (.column c))
    (hdive : dive.stored = true) (hstored : lp.stored = some stored) :
    Ends (closeDive dive) lp (fun _ t => BroughtBack stored lp t) fun _ _ => True := by
  have hrevive (s : σ) (settings : Settings) :
      Ends (reviveSolution dive) { lp with solver := s, settings }
        (fun _ t => BroughtBack stored lp t) fun _ _ => True := by
    have hrestore : Ends restoreSolution { lp with solver := s, settings }
        (fun _ t => BroughtBack stored { lp with solver := s, settings } t) fun _ _ => True :=
      ends_restoreSolution hcolumns hstored
    rw [reviveSolution, if_pos hdive]
    exact hrestore.mono_ok fun _ t ht =>
      ⟨ht.status, ht.flags, ht.solverObjective, ht.nrSolves, ht.column, ht.row⟩
  rw [closeDive, Ends.bind_iff, setIterationLimit, Ends.modify_iff, Ends.bind_iff, reviveSolver,
    Ends.tryCatch_iff, ends_onSolver]
  exact (Ends.self _ lp.solver).mono (fun _ s _ => hrevive s _) fun _ s _ => hrevive s _

/-- A relaxation has the solution of another one. -/
structure SameSolution (lp t : Relaxation σ) : Prop where
  status : t.status = lp.status
  flags : t.flags = lp.flags
  objective : t.objective = lp.objective
  column : ∀ c ∈ lp.columns, (t.matrix.column c).values = (lp.matrix.column c).values
  row : ∀ r ∈ lp.rows, ∀ row, lp.matrix.row? r = some row →
    ∃ row', t.matrix.row? r = some row' ∧ row'.values = row.valuesAt t.nrSolves

theorem objective_congr (hflags : t.flags = lp.flags) (hstatus : t.status = lp.status)
    (hsolver : t.solverObjective = lp.solverObjective) (hloose : t.loose = lp.loose) :
    t.objective = lp.objective := by
  rw [objective, objective, looseObjective, looseObjective, hflags, hstatus, hsolver, hloose]

/-- The solution that a dive starts from comes back at its end, if it is put aside, whatever was
changed, added and solved during the dive. -/
theorem Dived.sameSolution (h : Dived problem history edits lp₀ lp t u)
    (hstart : (startDive true).run.run lp = (.ok (), t)) (hsolved : t.flags.solved = true) :
    SameSolution t u := by
  obtain ⟨haside, dive, hdive, hstored⟩ := h.tracked.ends_startDive_solved.of_ok hstart hsolved
  obtain ⟨log, w, hlog, hundo, hclose⟩ := h.diving.exists_undone hdive h.ended
  have hlast := h.tracked_start.performAll h.permittedEdits
  have hnrRows : dive.nrRows = t.rows.size := by
    obtain ⟨_, _, _, -, hdive'⟩ := h.started.dive
    obtain rfl := Option.some.inj (hdive.symm.trans hdive')
    rfl
  obtain ⟨hrewound, hrows⟩ := (h.diving.ends_undoDive hlast hdive hnrRows hlog).of_ok hundo
  obtain ⟨⟨hw, -⟩, -⟩ := (ends_undoDive hlast.surfaced problem _).of_ok hundo
  have hretained : Retained Set.univ t w := by
    have hsurface : Retained Set.univ (t.performAll edits) { t.performAll edits with dive := none } :=
      ⟨refl _, rfl⟩
    have hundone := (retained_undoDive problem _ _).of_ok hundo
    exact IsTrans.trans _ _ _ (retained_performAll t h.steps) (IsTrans.trans _ _ _ hsurface hundone)
  have hrestored := (ends_closeDive_restored (fun c hc => hw.coherent.has_of_mem hc) hstored
    (hretained.stored.trans haside.solution)).of_ok hclose
  have hloose : u.loose = t.loose := h.rolledBack.loose.trans h.started.intact.loose.symm
  refine ⟨hrestored.status, hrestored.flags, ?_, fun c hc => ?_, fun r hr row hrow => ?_⟩
  · exact objective_congr hrestored.flags hrestored.status hrestored.solverObjective hloose
  · have haside' : (w.matrix.column c).stored = some (t.matrix.column c).values := by
      rw [hretained.matrix.column (h.tracked_start.coherent.has_of_mem hc), haside.column c hc]
    rw [hrestored.column c (hrewound.columns ▸ hc), Column.restore_of_stored haside']
  · obtain ⟨row', hrow', -⟩ := hrewound.row hrow
    have haside' : row'.stored = some row.values := by
      rw [(hretained.matrix.of_row hrow hrow').1, haside.row r hr row hrow]
    refine ⟨row'.restore w.nrSolves, ?_, ?_⟩
    · rw [hrestored.row r (hrows ▸ hr), hrow', Option.map_some]
    · rw [Row.restore_of_stored haside', hrestored.nrSolves, Row.valuesAt]

/-- During the dive the column has to be at 2. It was at 1 before, and is so again. -/
example :
    let t := (fresh.performAll solvingActions).after (startDive true)
    let u := t.performAll [.changeSide ⟨0⟩ .lower 2, .solve .empty]
    let v := u.after (endDive smallProblem)
    (u.matrix.column ⟨0⟩).values.primal = 2 ∧ v.flags.solved = true ∧
      (v.matrix.column ⟨0⟩).values.primal = 1 := by
  decide +kernel

end Relaxation

end CertifiedLp
