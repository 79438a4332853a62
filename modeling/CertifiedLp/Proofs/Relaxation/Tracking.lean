import Mathlib
import CertifiedLp.Proofs.Relaxation.Awareness
import CertifiedLp.Proofs.Relaxation.Mirroring

/-!
# Every operation keeps the notes

One operation after the other: whatever it does, and whether it fails or not, what the solver has to be
told remains noted. So in every relaxation that was created and worked with, nothing is forgotten.
-/

namespace CertifiedLp

namespace Relaxation

variable {σ : Type} [Solver σ] {lp t : Relaxation σ} {a : Action} {actions : List Action}
variable {solver : σ} {settings : Settings} {α : Type}

/-! ## Lists of active lines -/

/-- An operation on the lists of active lines keeps the notes: either the solver does not count as
synced afterwards, or nothing happened. -/
theorem aware_of_outdates {columns : Array ColumnRef} {rows : Array RowRef} {loose : ObjectiveSum}
    {scope : Scope} (h : Steady Whatever scope { lp with columns, rows, loose } t)
    (hout : t.Obsolete ∧ t.matrix.synced = false ∨ t = lp) (hlp : lp.Aware) : t.Aware := by
  rcases hout with ⟨-, hsynced⟩ | rfl
  · exact h.aware_of_relisted hlp hsynced
  · exact hlp

theorem ends_addColumn_tracked (h : lp.Tracked) {c : ColumnRef} (hc : lp.matrix.Has (.column c)) :
    Ends (addColumn c) lp (fun _ t => t.Tracked) fun _ t => t.Tracked := by
  refine (((ends_addColumn h.coherent hc).and (ends_addColumn_steady (S := Whatever) (.edits ∅) c)).and
    (outdates_addColumn c lp)).mono ?_ ?_
  · rintro _ t ⟨⟨hcarried, -, hsteady⟩, -, hsynced⟩
    exact ⟨hcarried.coherent, hsteady.aware_of_relisted h.aware hsynced⟩
  · rintro _ t ⟨⟨rfl, -⟩, -⟩
    exact h

theorem tracks_addRow (r : RowRef) : Along Tracks (addRow r : RelaxationM σ Unit) :=
  along_tracks fun lp h => by
    refine (((ends_addRow h.coherent r).and (ends_addRow_steady (S := Whatever) (.edits ∅) r)).and
      (outdates_addRow r lp)).mono ?_ ?_
    · rintro _ t ⟨⟨hcarried, hsteady⟩, -, hsynced⟩
      exact ⟨hcarried.coherent, hsteady.aware_of_relisted h.aware hsynced⟩
    · rintro _ t ⟨⟨⟨hcarried, -⟩, hsteady⟩, -⟩
      exact ⟨hcarried.coherent, hsteady.aware h.aware⟩

theorem tracks_shrinkColumns (size : Nat) :
    Along Tracks (shrinkColumns size : RelaxationM σ Unit) := along_tracks fun lp h => by
  have hsteady : Ends (shrinkColumns size) lp _ _ :=
    ends_shrinkColumns_steady (S := Whatever) (.edits ∅) size
  refine (((ends_shrinkColumns h.coherent size).and hsteady).and
    (outdates_shrinkColumns size lp)).mono ?_ ?_
  · rintro _ t ⟨⟨hcarried, hsteady⟩, hout⟩
    exact ⟨hcarried.coherent, aware_of_outdates hsteady hout h.aware⟩
  · rintro _ t ⟨⟨hfail, -⟩, -⟩
    exact hfail.elim

theorem tracks_shrinkRows (size : Nat) : Along Tracks (shrinkRows size : RelaxationM σ Unit) :=
  along_tracks fun lp h => by
    have hsteady := rowsSteady_shrinkRows (S := Whatever) True size lp
    refine (((ends_shrinkRows h.coherent size).and hsteady).and
      (outdates_shrinkRows size lp)).mono ?_ ?_
    · rintro _ t ⟨⟨hcarried, rows, hsteady⟩, hout⟩
      exact ⟨hcarried.coherent, aware_of_outdates hsteady hout h.aware⟩
    · rintro _ t ⟨⟨hfail, -⟩, -⟩
      exact hfail.elim

theorem tracks_deleteRows (mask : Array Bool) :
    Along Tracks (deleteRows mask : RelaxationM σ Unit) := along_tracks fun lp h => by
  have hsteady := rowsSteady_deleteRows (S := Whatever) True mask lp
  refine (((ends_deleteRows h.coherent mask).and hsteady).and
    (outdates_deleteRows mask lp)).mono ?_ ?_
  · rintro _ t ⟨⟨hcarried, rows, hsteady⟩, hout⟩
    exact ⟨hcarried.coherent, aware_of_outdates hsteady hout h.aware⟩
  · rintro _ t ⟨⟨rfl, -⟩, -⟩
    exact h

theorem tracks_clear : Along Tracks (clear : RelaxationM σ Unit) :=
  .bind (tracks_shrinkColumns 0) fun _ => tracks_shrinkRows 0

/-! ## Objective, bounds, sides and constants -/

theorem admitsChanges_tracks : AdmitsChanges (Tracks : Relaxation σ → Relaxation σ → Prop) where
  respecified h htracked := ⟨(h.quiet.carries htracked.coherent).coherent, h.aware htracked.aware⟩
  rowRespecified hrow h htracked :=
    ⟨(h.quiet.carries htracked.coherent).coherent, h.aware hrow htracked.aware⟩

/-! ## Solver and settings -/

theorem tracks_sync : Along Tracks (sync : RelaxationM σ Unit) :=
  along_tracks fun _ h => (ends_sync h).mono_ok fun _ _ ht => ht.1

/-- What concerns neither the lines nor the lists, the queues and the solver. -/
theorem tracks_modify {f : Relaxation σ → Relaxation σ}
    (h : ∀ lp, (f lp).matrix = lp.matrix ∧ (f lp).solver = lp.solver ∧ (f lp).columns = lp.columns ∧
      (f lp).rows = lp.rows ∧ (f lp).changedColumns = lp.changedColumns ∧
      (f lp).changedRows = lp.changedRows) :
    Along Tracks (modify f : RelaxationM σ PUnit) := .modify fun lp htracked => by
  obtain ⟨hmatrix, hsolver, hcolumns, hrows, hchangedColumns, hchangedRows⟩ := h lp
  exact ⟨((quiet_of_eq hmatrix hsolver hcolumns hrows).carries htracked.coherent).coherent,
    aware_congr htracked.aware hmatrix hcolumns hrows hchangedColumns hchangedRows⟩

theorem Unedited.tracks (h : Unedited Resized lp t) : Tracks lp t := by
  intro hlp
  have hsteady : Steady Resized (.edits ∅) lp t := h.steady
  exact ⟨(h.quiet.carries hlp.coherent).coherent, hsteady.aware hlp.aware⟩

theorem tracks_of_unedited {x : RelaxationM σ α} (h : Along (Unedited Resized) x) : Along Tracks x :=
  h.mono fun _ _ => Unedited.tracks

theorem tracks_setInt (parameter : IntParameter) (value : Int) :
    Along Tracks (onSolver (Solver.setInt parameter value) : RelaxationM σ Unit) :=
  tracks_of_unedited (unedited_onSolver (respects_resized.setInt parameter value))

theorem tracks_setSettings (settings : Settings) :
    Along Tracks (setSettings settings : RelaxationM σ Unit) := by
  refine .bind (tracks_setInt _ _) fun _ => .bind (tracks_setInt _ _) fun _ => ?_
  exact tracks_modify fun _ => ⟨rfl, rfl, rfl, rfl, rfl, rfl⟩

theorem tracks_undoEdits (problem : Problem) (dive : Dive σ) :
    Along Tracks (undoEdits problem dive : RelaxationM σ Unit) :=
  admitsChanges_tracks.undoEdits tracks_shrinkRows problem dive

/-- Solves and dives keep the notes. -/
theorem bears_tracks : Bears (Tracks : Relaxation σ → Relaxation σ → Prop) where
  toAdmitsChanges := admitsChanges_tracks
  unedited := Unedited.tracks
  dive lp dive := tracks_modify (f := ({ · with dive })) (fun _ => ⟨rfl, rfl, rfl, rfl, rfl, rfl⟩) lp
  iterationLimit lp limit :=
    tracks_modify (f := fun lp => { lp with settings := { lp.settings with iterationLimit := limit } })
      (fun _ => ⟨rfl, rfl, rfl, rfl, rfl, rfl⟩) lp
  sync := tracks_sync
  shrinkRows := tracks_shrinkRows

/-! ## Creation -/

/-- The solver does not have a new column. -/
theorem Aware.pushColumn (h : lp.Aware) {column : Column} (hnone : column.solverPosition = none)
    (hunmarked : column.coefficientChanged = false) (pseudo loose : ObjectiveSum) :
    { lp with matrix := (lp.matrix.pushColumn column).1, pseudo, loose }.Aware := by
  refine ⟨⟨fun {c} hc => ?_, h.queued.row⟩, h.watched.pushColumn hunmarked, fun hsynced => ?_⟩
  · have hcases : (lp.matrix.pushColumn column).1.column c = lp.matrix.column c ∨
        (lp.matrix.pushColumn column).1.column c = column := by
      rw [ConstraintMatrix.column, ConstraintMatrix.column, ConstraintMatrix.pushColumn,
        Array.getD_eq_getD_getElem?, Array.getD_eq_getD_getElem?, Array.getElem?_push]
      split
      · exact .inr rfl
      · exact .inl rfl
    rcases hcases with heq | heq
    · exact heq.symm ▸ h.queued.column hc
    · intro hposition
      rw [heq, hnone] at hposition
      cases hposition
  · obtain ⟨h₁, h₂, h₃, h₄, h₅, h₆⟩ := h.inStep hsynced
    exact ⟨h₁, h₂, h₃, h₄, h₅, h₆⟩

theorem Aware.pushRow (h : lp.Aware) {row : Row} (hnone : row.solverPosition = none)
    (hunmarked : row.coefficientChanged = false) :
    { lp with matrix := (lp.matrix.pushRow row).1 }.Aware := by
  refine ⟨⟨h.queued.column, fun {r row'} hr hrow' => ?_⟩, h.watched.pushRow hunmarked,
    fun hsynced => ?_⟩
  · have hcases : lp.matrix.row? r = some row' ∨ row' = row := by
      rw [ConstraintMatrix.row?, ConstraintMatrix.pushRow, Array.getElem?_push] at hrow'
      split at hrow'
      · exact .inr (Option.some.inj hrow').symm
      · exact .inl hrow'
    rcases hcases with heq | rfl
    · exact h.queued.row hr heq
    · intro hposition
      rw [hnone] at hposition
      cases hposition
  · obtain ⟨h₁, h₂, h₃, h₄, h₅, h₆⟩ := h.inStep hsynced
    exact ⟨h₁, h₂, h₃, h₄, h₅, h₆⟩

theorem tracks_createColumn (problem : Problem) (x : VariableRef) :
    Along Tracks (createColumn problem x : RelaxationM σ (Problem × ColumnRef)) :=
  along_tracks fun lp h => by
    have hcreate : Ends (createColumn problem x) lp (fun _ t => t.Aware) fun _ t => t.Aware := by
      rw [ends_createColumn_iff]
      refine ⟨fun _ => h.aware, fun _ => ⟨fun _ => h.aware, fun _ => ?_⟩⟩
      exact h.aware.pushColumn rfl rfl _ _
    exact ((along_createColumn problem x lp).and hcreate).mono
      (fun _ _ ht => ⟨(ht.1 h.coherent).coherent, ht.2⟩)
      fun _ _ ht => ⟨(ht.1 h.coherent).coherent, ht.2⟩

theorem tracks_createRow (name : String) (spec : RowSpec) :
    Along Tracks (createRow name spec : RelaxationM σ RowRef) := along_tracks fun lp h => by
  have hcreate : Ends (createRow name spec) lp (fun _ t => t.Aware) fun _ t => t.Aware := by
    rw [ends_createRow_iff]
    exact ⟨fun _ => h.aware, fun _ => h.aware.pushRow rfl rfl⟩
  refine ((ends_createRow h.coherent name spec).and hcreate).mono
    (fun _ _ ht => ⟨ht.1.1, ht.2⟩) ?_
  rintro _ t ⟨rfl, -⟩
  exact h

/-- Nothing is noted of a new relaxation, since the solver has nothing. -/
theorem aware_blank (solver : σ) : (blank solver).Aware where
  queued := ⟨fun {_} _ => by rintro ⟨⟩, fun {r row} _ hrow => by
    rw [show (blank solver).matrix.row? r = none from ConstraintMatrix.row?_empty r] at hrow
    cases hrow⟩
  watched := ConstraintMatrix.watched_of_unmarked
    (fun c => congrArg Column.coefficientChanged (ConstraintMatrix.column_empty c))
    fun {r row} hrow => by cases (ConstraintMatrix.row?_empty r).symm.trans hrow
  inStep _ := ⟨rfl, rfl, rfl, rfl, rfl, rfl⟩

theorem tracked_create (hcreate : create solver settings = .ok lp) : lp.Tracked := by
  obtain ⟨⟨hcolumns, hrows⟩, hrun⟩ := of_create hcreate
  have hblank : (blank solver).Tracked := ⟨coherent_blank hcolumns hrows, aware_blank solver⟩
  exact (hblank.ends (tracks_setSettings settings)).of_ok hrun

/-! ## Actions -/

/-- Every action keeps the notes, whether it succeeds or not. -/
theorem Tracked.perform (h : lp.Tracked) (ha : lp.Permits a) :
    (lp.after (perform a)).Tracked := by
  have hlong {x : RelaxationM σ Unit} (hx : Along Tracks x) : (lp.after x).Tracked :=
    (h.ends hx).state
  -- whatever is steady keeps the notes; that it keeps the relaxation coherent is known
  have hsteady (scope : Scope) (hx : Along (Steady Whatever scope) (Relaxation.perform a)) :
      (lp.after (Relaxation.perform a)).Tracked :=
    ⟨h.coherent.perform ha, (hx.state lp).aware h.aware⟩
  have hforget {β : Type} {x : RelaxationM σ β} {scope : Scope}
      (hx : Along (Steady Whatever scope) x) : Along (Steady Whatever scope) (forgetful x) :=
    .bind hx fun _ => .pure
  cases a with
  | setSettings settings => exact hlong (tracks_setSettings settings)
  | setCutoff cutoff => exact hsteady (.edits ∅) (steady_of_unedited (unedited_setCutoff cutoff))
  | createColumn problem x => exact hlong (along_forgetful (tracks_createColumn problem x))
  | createRow name spec => exact hlong (along_forgetful (tracks_createRow name spec))
  | captureRow r => exact hsteady (.edits ∅) (steady_captureRow r)
  | releaseRow r => exact hsteady (.edits Set.univ) (steady_releaseRow (Set.mem_univ r))
  | lockRow r => exact hsteady (.edits ∅) (steady_lockRow r)
  | unlockRow r => exact hsteady (.edits ∅) (steady_unlockRow r)
  | addColumn c => exact (ends_addColumn_tracked h (ha c List.mem_cons_self)).state
  | addRow r => exact hlong (tracks_addRow r)
  | shrinkColumns size => exact hlong (tracks_shrinkColumns size)
  | shrinkRows size => exact hlong (tracks_shrinkRows size)
  | deleteRows mask => exact hlong (tracks_deleteRows mask)
  | clear => exact hlong tracks_clear
  | changeObjective c objective => exact hlong (admitsChanges_tracks.changeObjective c objective)
  | changeBound c side value => exact hlong (admitsChanges_tracks.changeBound c side value)
  | changeSide r side value => exact hlong (admitsChanges_tracks.changeSide r side value)
  | changeConstant r constant => exact hlong (admitsChanges_tracks.changeConstant r constant)
  | coefficient c r => exact hsteady (.edits ∅) (hforget (steady_coefficient c r))
  | edit c r e => exact hsteady (.edits ∅) (steady_edit c r e)
  | addCoefficientsInRow r coefficients =>
    exact hsteady (.edits ∅) (steady_addCoefficientsInRow r coefficients)
  | delayOrder r => exact hsteady (.edits ∅) (steady_delayOrder r)
  | forceOrder r => exact hsteady (.edits ∅) (steady_forceOrder r)
  | sync => exact hlong tracks_sync
  | solve a => exact hlong (along_forgetful (bears_tracks.solve a))
  | solveAnd write a => exact hlong (along_forgetful (bears_tracks.solveAnd write a))
  | storeSolution => exact hsteady (.edits ∅) (steady_of_unedited unedited_storeSolution)
  | restoreSolution => exact hsteady (.edits ∅) (steady_of_unedited unedited_restoreSolution)
  | rowActivity r => exact hsteady (.edits ∅) (hforget (steady_of_unedited (unedited_rowActivity r)))
  | rowFeasibility r =>
    exact hsteady (.edits ∅) (hforget (steady_of_unedited (unedited_rowFeasibility r)))
  | startDive store => exact hlong (bears_tracks.startDive store)
  | setIterationLimit limit => exact hlong (tracks_modify fun _ => ⟨rfl, rfl, rfl, rfl, rfl, rfl⟩)
  | endDive problem => exact hlong (bears_tracks.endDive problem)

/-- A run keeps the notes. -/
theorem Tracked.performAll (h : lp.Tracked) (hactions : Throughout Permits lp actions) :
    (lp.performAll actions).Tracked := performAll_keeps Tracked.perform h hactions

end Relaxation

end CertifiedLp
