import Mathlib
import CertifiedLp.Proofs.Relaxation.Entering
import CertifiedLp.Proofs.Relaxation.Watching

/-!
# Nothing is forgotten

What the solver has to be told is noted somewhere: every line in the solver that says something new is
queued, and if the relaxation counts as synced, then there is nothing left to do. Every operation
keeps this, also if it fails.
-/

namespace CertifiedLp

/-- A column does not need a place in the queue: the solver does not have it, or knows what it says. -/
def Column.IsKnown (column : Column) : Prop :=
  column.solverPosition.isSome = true → column.spec = column.sent

/-- A row does not need a place in the queue. -/
def Row.IsKnown (row : Row) : Prop := row.solverPosition.isSome = true → row.spec = row.sent

namespace Relaxation

open ConstraintMatrix (Keeps)

variable {σ : Type} [Solver σ] {S : σ → σ → Prop} {lp t : Relaxation σ} {scope : Scope}
variable {c : ColumnRef} {r : RowRef} {row : Row} {m : ConstraintMatrix} {α : Type}
variable {E : LpError → Relaxation σ → Prop}

/-! ## Notes -/

/-- Every line in the solver that says something new is queued. -/
structure Queued (lp : Relaxation σ) : Prop where
  column : ∀ {c}, c ∉ lp.changedColumns → Column.IsKnown (lp.matrix.column c)
  row : ∀ {r row}, r ∉ lp.changedRows → lp.matrix.row? r = some row → Row.IsKnown row

/-- There is nothing to tell the solver. -/
structure InStep (lp : Relaxation σ) : Prop where
  changedColumns : lp.changedColumns = #[]
  changedRows : lp.changedRows = #[]
  columns : lp.matrix.solverColumns.size = lp.columns.size
  rows : lp.matrix.solverRows.size = lp.rows.size
  firstChangedColumn : lp.matrix.firstChangedColumn = lp.columns.size
  firstChangedRow : lp.matrix.firstChangedRow = lp.rows.size

/-- What the solver has to be told is noted. -/
structure Aware (lp : Relaxation σ) : Prop where
  queued : lp.Queued
  watched : lp.matrix.Watched
  inStep : lp.matrix.synced = true → lp.InStep

/-! ## Steps that keep the notes -/

/-- The lists of active lines do not matter for the queues. -/
theorem Steady.queued {columns : Array ColumnRef} {rows : Array RowRef} {loose : ObjectiveSum}
    (h : Steady S scope { lp with columns, rows, loose } t) (hlp : lp.Queued) : t.Queued where
  column {c} hc := by
    rw [h.changedColumns] at hc
    have htold : (t.matrix.column c).told = (lp.matrix.column c).told := h.matrix.column c
    have hknown := hlp.column hc
    obtain ⟨-, hspec, hsent, hposition⟩ : _ ∧ _ ∧ _ ∧ _ := by
      simpa only [Column.told, Prod.mk.injEq] using htold
    rwa [Column.IsKnown, hspec, hsent, hposition]
  row {r row} hr hrow := by
    rw [h.changedRows] at hr
    obtain ⟨row₀, hrow₀, htold, -⟩ := h.matrix.row hrow
    obtain ⟨hspec, hsent, hposition⟩ : _ ∧ _ ∧ _ := by
      simpa only [Row.told, Prod.mk.injEq] using htold
    have hknown := hlp.row hr hrow₀
    rwa [Row.IsKnown, hspec, hsent, hposition]

theorem Steady.aware (h : Steady S scope lp t) (hlp : lp.Aware) : t.Aware where
  queued := h.queued hlp.queued
  watched := h.matrix.watched hlp.watched
  inStep hsynced := by
    have hold := hlp.inStep (h.matrix.synced hsynced)
    obtain ⟨hfirstColumn, hfirstRow⟩ := h.matrix.unchanged hsynced
    exact {
      changedColumns := h.changedColumns.trans hold.changedColumns
      changedRows := h.changedRows.trans hold.changedRows
      columns := by rw [h.matrix.solverColumns, h.columns, hold.columns]
      rows := by rw [h.matrix.solverRows, h.rows, hold.rows]
      firstChangedColumn := by rw [hfirstColumn, h.columns, hold.firstChangedColumn]
      firstChangedRow := by rw [hfirstRow, h.rows, hold.firstChangedRow] }

/-- The lists of active lines may change where the solver does not count as synced any more. -/
theorem Steady.aware_of_relisted {columns : Array ColumnRef} {rows : Array RowRef}
    {loose : ObjectiveSum} (h : Steady S scope { lp with columns, rows, loose } t)
    (hlp : lp.Aware) (hsynced : t.matrix.synced = false) : t.Aware where
  queued := h.queued hlp.queued
  watched := h.matrix.watched hlp.watched
  inStep h := nomatch hsynced.symm.trans h

/-- What does not concern the lines, the lists and the queues. -/
theorem aware_congr (hlp : lp.Aware) (hmatrix : t.matrix = lp.matrix)
    (hcolumns : t.columns = lp.columns) (hrows : t.rows = lp.rows)
    (hchangedColumns : t.changedColumns = lp.changedColumns)
    (hchangedRows : t.changedRows = lp.changedRows) : t.Aware := by
  obtain ⟨⟨hcolumn, hrow⟩, hwatched, hinStep⟩ := hlp
  rw [← hmatrix, ← hchangedColumns] at hcolumn
  rw [← hmatrix, ← hchangedRows] at hrow
  rw [← hmatrix] at hwatched hinStep
  refine ⟨⟨hcolumn, hrow⟩, hwatched, fun hsynced => ?_⟩
  obtain ⟨h₁, h₂, h₃, h₄, h₅, h₆⟩ := hinStep hsynced
  exact ⟨hchangedColumns.trans h₁, hchangedRows.trans h₂, by rw [hmatrix, hcolumns, h₃],
    by rw [hmatrix, hrows, h₄], by rw [hmatrix, hcolumns, h₅], by rw [hmatrix, hrows, h₆]⟩

theorem Respecified.aware {spec : ColumnSpec} (h : Respecified c spec lp t) (hlp : lp.Aware) :
    t.Aware := by
  obtain ⟨b, hmatrix⟩ := h.matrix
  have hcolumn (d : ColumnRef) :
      t.matrix.column d = (lp.matrix.modifyColumn c ({ · with spec })).column d := by
    rw [hmatrix]
    rfl
  refine ⟨⟨fun {d} hd => ?_, fun {r row} hr hrow => ?_⟩, ?_, fun hsynced => ?_⟩
  · have hold := hlp.queued.column fun hmem => hd (h.stillQueued d hmem)
    by_cases hcd : c = d
    · subst hcd
      rw [hcolumn]
      intro hposition
      by_cases hsame : (lp.matrix.column c).spec = spec
      · have hself := ConstraintMatrix.modifyColumn_eq_self (m := lp.matrix) (c := c)
          (f := ({ · with spec })) (by rw [← hsame])
        rw [hself] at hposition ⊢
        exact hold hposition
      · have hplace := ConstraintMatrix.column_modifyColumn_congr Column.solverPosition
          lp.matrix c (f := ({ · with spec })) (fun _ => rfl) c
        exact (hd (h.queued hsame (hplace ▸ hposition))).elim
    · rwa [hcolumn, ConstraintMatrix.column_modifyColumn_of_ne hcd]
  · rw [h.changedRows] at hr
    refine hlp.queued.row hr ?_
    rw [hmatrix] at hrow
    exact hrow
  · rw [hmatrix]
    exact hlp.watched.respecify c spec fun hb => (h.synced (by rw [hmatrix]; exact hb)).1
  · obtain ⟨hbefore, hchanged⟩ := h.synced hsynced
    obtain ⟨h₁, h₂, h₃, h₄, h₅, h₆⟩ := hlp.inStep hbefore
    rw [← h.columns] at h₃ h₅
    rw [← h.rows] at h₄ h₆
    exact ⟨hchanged.trans h₁, h.changedRows.trans h₂, by rw [hmatrix]; exact h₃,
      by rw [hmatrix]; exact h₄, by rw [hmatrix]; exact h₅, by rw [hmatrix]; exact h₆⟩

theorem RowRespecified.aware {spec : RowSpec} (h : RowRespecified r row spec lp t)
    (hrow : lp.matrix.row? r = some row) (hlp : lp.Aware) : t.Aware := by
  obtain ⟨f, b, hmatrix, hf⟩ := h.matrix
  refine ⟨⟨fun {d} hd => ?_, fun {s row'} hs hrow' => ?_⟩, ?_, fun hsynced => ?_⟩
  · rw [h.changedColumns] at hd
    rw [hmatrix]
    exact hlp.queued.column hd
  · have hrow' : (lp.matrix.modifyRow r f).row? s = some row' := by
      rw [hmatrix] at hrow'
      exact hrow'
    have hold {row : Row} (hrow : lp.matrix.row? s = some row) : row.IsKnown :=
      hlp.queued.row (fun hmem => hs (h.stillQueued s hmem)) hrow
    rw [ConstraintMatrix.row?_modifyRow] at hrow'
    split at hrow'
    · next heq =>
      subst heq
      rw [hrow, Option.map_some, Option.some_inj] at hrow'
      subst hrow'
      intro hposition
      rw [hf.congr Row.solverPosition (fun _ => rfl) row] at hposition
      rw [hf.spec, hf.congr Row.sent (fun _ => rfl) row]
      by_contra hne
      by_cases hsame : row.spec = spec
      · exact hne (hsame ▸ hold hrow hposition)
      · exact hs (h.queued hsame hposition)
    · exact hold hrow'
  · rw [hmatrix]
    exact hlp.watched.rowRespecify hrow hf fun hb => (h.synced (by rw [hmatrix]; exact hb)).1
  · obtain ⟨hbefore, hchanged⟩ := h.synced hsynced
    obtain ⟨h₁, h₂, h₃, h₄, h₅, h₆⟩ := hlp.inStep hbefore
    rw [← h.columns] at h₃ h₅
    rw [← h.rows] at h₄ h₆
    exact ⟨h.changedColumns.trans h₁, hchanged.trans h₂, by rw [hmatrix]; exact h₃,
      by rw [hmatrix]; exact h₄, by rw [hmatrix]; exact h₅, by rw [hmatrix]; exact h₆⟩

/-! ## The stages -/

/-- The solver is being brought up to date. -/
structure Syncing (lp : Relaxation σ) : Prop where
  coherent : lp.Coherent
  queued : lp.Queued
  watched : lp.matrix.Watched
  unsynced : lp.matrix.synced = false

/-- The solver has no column that it should not have, and none is marked. -/
structure ColumnsTrimmed (lp : Relaxation σ) : Prop where
  lead : ColumnsLead lp
  size_le : lp.matrix.solverColumns.size ≤ lp.matrix.firstChangedColumn
  unmarked : lp.matrix.ColumnsUnmarked

/-- The solver has no row that it should not have, and none is marked. -/
structure RowsTrimmed (lp : Relaxation σ) : Prop where
  lead : RowsLead lp
  size_le : lp.matrix.solverRows.size ≤ lp.matrix.firstChangedRow
  unmarked : lp.matrix.RowsUnmarked

/-- The queued rows are known to the solver. -/
def RowsNoted (lp : Relaxation σ) : Prop :=
  ∀ r ∈ lp.changedRows, ∀ row, lp.matrix.row? r = some row → row.spec = row.sent

/-- The solver has no line that it should not have. -/
structure Trimmed (lp : Relaxation σ) : Prop extends lp.Syncing where
  columns : lp.ColumnsTrimmed
  rows : lp.RowsTrimmed

/-- The solver has no line that it should not have, and knows what its lines say. -/
structure Noted (lp : Relaxation σ) : Prop extends lp.Trimmed where
  changedColumns : lp.changedColumns = #[]
  rowsNoted : lp.RowsNoted

theorem trimmed_iff : lp.Trimmed ↔ (lp.Syncing ∧ lp.ColumnsTrimmed) ∧ lp.RowsTrimmed :=
  ⟨fun h => ⟨⟨h.toSyncing, h.columns⟩, h.rows⟩, fun h => ⟨h.1.1, h.1.2, h.2⟩⟩

theorem noted_iff : lp.Noted ↔ (lp.Trimmed ∧ lp.changedColumns = #[]) ∧ lp.RowsNoted :=
  ⟨fun h => ⟨⟨h.toTrimmed, h.changedColumns⟩, h.rowsNoted⟩, fun h => ⟨h.1.1, h.1.2, h.2⟩⟩

/-- Where no line is marked, nothing has to be watched. -/
theorem trimmed_of_lines (hcoherent : lp.Coherent) (hqueued : lp.Queued)
    (hunsynced : lp.matrix.synced = false) (hcolumns : lp.ColumnsTrimmed) (hrows : lp.RowsTrimmed) :
    lp.Trimmed :=
  have hwatched := ConstraintMatrix.watched_of_unmarked hcolumns.unmarked hrows.unmarked
  ⟨⟨hcoherent, hqueued, hwatched, hunsynced⟩, hcolumns, hrows⟩

/-- Calls of the solver that move nothing leave it without lines that it should not have. -/
theorem Trimmed.quiet (h : lp.Trimmed) {s : σ} {flags : Flags} {status : LpStatus}
    (hquiet : Quiet lp { lp with solver := s, flags, status }) :
    Trimmed { lp with solver := s, flags, status } := by
  have hcoherent := (hquiet.carries h.coherent).coherent
  refine trimmed_of_lines hcoherent ⟨h.queued.column, h.queued.row⟩ h.unsynced ?_ ?_
  · exact ⟨hquiet.unmoved.columnsLead h.columns.lead, h.columns.size_le, h.columns.unmarked⟩
  · exact ⟨hquiet.unmoved.rowsLead h.rows.lead, h.rows.size_le, h.rows.unmarked⟩

theorem ends_trimColumns (h : lp.Syncing) :
    Ends syncDeletedColumns lp (fun _ t => t.Syncing ∧ t.ColumnsTrimmed) fun _ t => t.Syncing := by
  refine ((ends_syncDeletedColumns h.coherent).and (ends_syncDeletedColumns_exactly lp)).mono ?_ ?_
  · rintro _ _ ⟨⟨hcarried, hlead⟩, s, flags, status, -, rfl⟩
    have hunmarked := unmarked_dropColumns h.coherent h.watched
    refine ⟨⟨hcarried.coherent, ?queued, ?watched, h.unsynced⟩, hlead, ?size, hunmarked⟩
    case queued =>
      refine ⟨fun {c} hc => ?_, h.queued.row⟩
      refine ConstraintMatrix.modifyColumns_keeps (P := Column.IsKnown) (fun column _ hposition => ?_)
        (h.queued.column hc)
      cases hposition
    case watched =>
      refine ⟨fun {c} hmark => ?_, h.watched.row⟩
      cases (hunmarked c).symm.trans hmark
    case size => exact (Array.size_extract_le ..).trans (Nat.le_refl _)
  · rintro _ _ ⟨hcarried, s, -, rfl⟩
    exact ⟨hcarried.coherent, ⟨h.queued.column, h.queued.row⟩, h.watched, h.unsynced⟩

theorem ends_trimRows (h : lp.Syncing) (hcolumns : lp.ColumnsTrimmed) :
    Ends syncDeletedRows lp (fun _ t => t.Trimmed)
      fun _ t => t.Syncing ∧ t.ColumnsTrimmed := by
  refine ((ends_syncDeletedRows h.coherent).and (ends_syncDeletedRows_exactly lp)).mono ?_ ?_
  · rintro _ _ ⟨⟨hcarried, hlead, hstill⟩, s, flags, status, -, rfl⟩
    have hunmarked : (lp.matrix.dropRows lp.firstStaleRow).RowsUnmarked :=
      unmarked_dropRows h.coherent h.watched
    refine trimmed_of_lines hcarried.coherent ⟨h.queued.column, fun {r row} hr hrow => ?_⟩
      h.unsynced ⟨hstill hcolumns.lead, hcolumns.size_le, hcolumns.unmarked⟩ ⟨hlead, ?_, hunmarked⟩
    · refine ConstraintMatrix.modifyRows_keeps (P := Row.IsKnown) (fun row _ hposition => ?_)
        (fun row => h.queued.row hr) hrow
      cases hposition
    · exact (Array.size_extract_le ..).trans (Nat.le_refl _)
  · rintro _ _ ⟨hcarried, s, -, rfl⟩
    exact ⟨⟨hcarried.coherent, ⟨h.queued.column, h.queued.row⟩, h.watched, h.unsynced⟩,
      hcolumns.lead, hcolumns.size_le, hcolumns.unmarked⟩

theorem ends_noteChangedColumns (h : lp.Trimmed) :
    Ends syncChangedColumns lp (fun _ t => t.Trimmed ∧ t.changedColumns = #[])
      fun _ t => t.Trimmed := by
  refine ((quiet_syncChangedColumns lp).and (ends_syncChangedColumns_exactly lp)).mono ?_ ?_
  · rintro _ _ ⟨hquiet, s, s', flags, status, -, -, rfl⟩
    have hcoherent := (hquiet.carries h.coherent).coherent
    have hunmarked : lp.noteColumns.matrix.ColumnsUnmarked :=
      h.columns.unmarked.modifyColumns fun _ h => h
    refine ⟨trimmed_of_lines hcoherent ⟨fun {c} _ hposition => ?_, h.queued.row⟩ h.unsynced
      ⟨hquiet.unmoved.columnsLead h.columns.lead, h.columns.size_le, hunmarked⟩
      ⟨hquiet.unmoved.rowsLead h.rows.lead, h.rows.size_le, h.rows.unmarked⟩, rfl⟩
    have hplace :
        ((lp.matrix.modifyColumns lp.changedColumns.toList noteColumn).column c).solverPosition =
          (lp.matrix.column c).solverPosition :=
      ConstraintMatrix.modifyColumns_keeps (P := (·.solverPosition = _)) (fun _ => id) rfl
    by_cases hc : c ∈ lp.changedColumns
    · refine ConstraintMatrix.modifyColumns_establishes (P := fun column => column.spec = column.sent)
        (fun _ => rfl) (Array.mem_toList_iff.mpr hc) (ConstraintMatrix.lt_size_of_column_ne ?_)
      intro hdefault
      rw [noteColumns, hplace, hdefault] at hposition
      cases hposition
    · exact ConstraintMatrix.modifyColumns_keeps (P := Column.IsKnown) (fun _ _ _ => rfl)
        (h.queued.column hc) hposition
  · rintro _ _ ⟨hquiet, s, s', flags, status, -, rfl⟩
    exact h.quiet hquiet

theorem ends_noteChangedRows (h : lp.Trimmed ∧ lp.changedColumns = #[]) :
    Ends syncChangedRows lp (fun _ t => t.Noted ∧ t.changedRows = #[])
      fun _ t => t.Trimmed ∧ t.changedColumns = #[] := by
  obtain ⟨hlp, hnoted⟩ := h
  refine ((quiet_syncChangedRows lp).and (ends_syncChangedRows_exactly lp)).mono ?_ ?_
  · rintro _ _ ⟨hquiet, s, flags, status, -, rfl⟩
    have hcoherent := (hquiet.carries hlp.coherent).coherent
    have hunmarked : lp.noteRows.matrix.RowsUnmarked :=
      ConstraintMatrix.RowsUnmarked.modifyRows hlp.rows.unmarked (f := noteRow) fun _ h => h
    refine ⟨⟨trimmed_of_lines hcoherent ⟨hlp.queued.column, fun {r row} _ hrow => ?_⟩ hlp.unsynced
      ⟨hquiet.unmoved.columnsLead hlp.columns.lead, hlp.columns.size_le, hlp.columns.unmarked⟩
      ⟨hquiet.unmoved.rowsLead hlp.rows.lead, hlp.rows.size_le, hunmarked⟩, hnoted, ?_⟩, rfl⟩
    · by_cases hr : r ∈ lp.changedRows
      · exact fun _ => ConstraintMatrix.modifyRows_establishes (P := fun row => row.spec = row.sent)
          (fun _ => rfl) (Array.mem_toList_iff.mpr hr) hrow
      · exact ConstraintMatrix.modifyRows_keeps (P := Row.IsKnown) (fun _ _ _ => rfl)
          (fun _ => hlp.queued.row hr) hrow
    · intro r hr
      exact (Array.not_mem_empty r hr).elim
  · rintro _ _ ⟨hquiet, s, -, rfl⟩
    exact ⟨hlp.quiet hquiet, hnoted⟩

/-- Linking lines says nothing new. -/
theorem Queued.link (h : lp.Queued) (hm : m.without .entries = lp.matrix.without .entries) :
    { lp with matrix := m }.Queued where
  column {c} hc := by
    have hcolumn := ConstraintMatrix.column_eq_of_without hm c
    exact (Forgetting.column_congr Column.IsKnown hcolumn fun _ => rfl).symm ▸ h.column hc
  row {r row} hr hrow := by
    obtain ⟨row₀, hrow₀, heq⟩ := ConstraintMatrix.row_eq_of_without hm.symm hrow
    exact Forgetting.row_congr Row.IsKnown heq (fun _ => rfl) ▸ h.row hr hrow₀

theorem RowsNoted.link (h : lp.RowsNoted) (hm : m.without .entries = lp.matrix.without .entries) :
    { lp with matrix := m }.RowsNoted := by
  intro r hr row hrow
  obtain ⟨row₀, hrow₀, heq⟩ := ConstraintMatrix.row_eq_of_without hm.symm hrow
  exact Forgetting.row_congr (fun row : Row => row.spec = row.sent) heq (fun _ => rfl) ▸
    h r hr row₀ hrow₀

theorem size_newColumns (h : ColumnsLead lp) :
    lp.matrix.solverColumns.size + lp.newColumns.length = lp.columns.size := by
  have hle := h.le_left
  rw [newColumns, Array.length_toList, Array.size_extract, Nat.min_self]
  omega

theorem size_newRows (h : RowsLead lp) :
    lp.matrix.solverRows.size + lp.newRows.length = lp.rows.size := by
  have hle := h.le_left
  rw [newRows, Array.length_toList, Array.size_extract, Nat.min_self]
  omega

theorem ends_syncAddedColumns_none (hnone : lp.matrix.solverColumns.size = lp.columns.size) :
    Ends syncAddedColumns lp (fun _ t => t = lp) E := by
  rw [syncAddedColumns, Ends.bind_iff, Ends.get_iff, if_neg (not_not.mpr hnone)]
  rfl

theorem ends_syncAddedRows_none (hnone : lp.matrix.solverRows.size = lp.rows.size) :
    Ends syncAddedRows lp (fun _ t => t = lp) E := by
  rw [syncAddedRows, Ends.bind_iff, Ends.get_iff, if_neg (not_not.mpr hnone)]
  rfl

/-- Linking lines moves none of them. -/
theorem ColumnsTrimmed.link (h : lp.ColumnsTrimmed)
    (hm : m.without .entries = lp.matrix.without .entries) :
    { lp with matrix := m }.ColumnsTrimmed := by
  have hheld : m.solverColumns = lp.matrix.solverColumns := congrArg (·.solverColumns) hm
  have hfirst : m.firstChangedColumn = lp.matrix.firstChangedColumn :=
    congrArg (·.firstChangedColumn) hm
  obtain ⟨hlead, hle, hunmarked⟩ := h
  rw [ColumnsLead, ← hheld] at hlead
  rw [← hheld, ← hfirst] at hle
  exact ⟨hlead, hle, fun c => (Forgetting.column_congr Column.coefficientChanged
    (ConstraintMatrix.column_eq_of_without hm c) fun _ => rfl).trans (hunmarked c)⟩

theorem RowsTrimmed.link (h : lp.RowsTrimmed)
    (hm : m.without .entries = lp.matrix.without .entries) :
    { lp with matrix := m }.RowsTrimmed := by
  have hheld : m.solverRows = lp.matrix.solverRows := congrArg (·.solverRows) hm
  have hfirst : m.firstChangedRow = lp.matrix.firstChangedRow := congrArg (·.firstChangedRow) hm
  obtain ⟨hlead, hle, hunmarked⟩ := h
  rw [RowsLead, ← hheld] at hlead
  rw [← hheld, ← hfirst] at hle
  refine ⟨hlead, hle, fun hrow => ?_⟩
  obtain ⟨row₀, hrow₀, heq⟩ := ConstraintMatrix.row_eq_of_without hm.symm hrow
  exact (Forgetting.row_congr Row.coefficientChanged heq fun _ => rfl).symm.trans (hunmarked hrow₀)

/-- Lines that were linked still have to be added. -/
theorem Noted.link (h : lp.Noted) (hm : m.without .entries = lp.matrix.without .entries) {s : σ}
    (hcoherent : { lp with matrix := m, solver := s }.Coherent) :
    { lp with matrix := m, solver := s }.Noted := by
  have hqueued := h.queued.link hm
  have hcolumns := h.columns.link hm
  have hrows := h.rows.link hm
  have hunsynced := (congrArg ConstraintMatrix.synced hm).trans h.unsynced
  refine ⟨trimmed_of_lines hcoherent ⟨hqueued.column, hqueued.row⟩ hunsynced ?_ ?_,
    h.changedColumns, h.rowsNoted.link hm⟩
  · exact ⟨hcolumns.lead, hcolumns.size_le, hcolumns.unmarked⟩
  · exact ⟨hrows.lead, hrows.size_le, hrows.unmarked⟩

theorem ends_addNewColumns (h : lp.Noted) :
    Ends syncAddedColumns lp
      (fun _ t => (t.Noted ∧ t.matrix.solverColumns.size = t.columns.size) ∧
        t.changedRows = lp.changedRows) fun _ t => t.Noted := by
  by_cases hnone : lp.matrix.solverColumns.size = lp.columns.size
  · refine (ends_syncAddedColumns_none hnone).mono_ok ?_
    rintro _ t rfl
    exact ⟨⟨h, hnone⟩, rfl⟩
  have hm := (h.coherent.sound.linkColumns lp.newColumns).without
  have hheld : lp.linkNewColumns.matrix.solverColumns = lp.matrix.solverColumns :=
    congrArg (·.solverColumns) hm
  refine ((ends_syncAddedColumns h.coherent h.columns.lead).and
    (ends_syncAddedColumns_exactly h.coherent hnone)).mono ?_ ?_
  · rintro _ _ ⟨⟨hcarried, hrowsLead⟩, s, flags, status, -, rfl⟩
    have hqueued := h.queued.link hm
    have hrows := h.rows.link hm
    have hunsynced := (congrArg ConstraintMatrix.synced hm).trans h.unsynced
    have hunmarked : lp.linkNewColumns.attachNewColumns.matrix.ColumnsUnmarked :=
      (h.columns.link hm).unmarked.attachColumns _
    have hsize : lp.linkNewColumns.attachNewColumns.matrix.solverColumns.size = lp.columns.size := by
      have hcount := size_newColumns h.columns.lead
      rw [newColumns, ← hheld] at hcount
      rw [attachNewColumns, newColumns, ConstraintMatrix.size_attachColumns, List.length_zipIdx]
      exact hcount
    refine ⟨⟨⟨trimmed_of_lines hcarried.coherent ⟨fun {c} hc => ?_, hqueued.row⟩ hunsynced
      ⟨?_, hsize.le, hunmarked⟩ ⟨hrows.lead, hrows.size_le, hrows.unmarked⟩, h.changedColumns,
      fun r hr row hrow => h.rowsNoted.link hm r hr row hrow⟩, hsize⟩, rfl⟩
    · exact ConstraintMatrix.attachColumns_keeps (P := Column.IsKnown) (fun _ _ _ _ => rfl)
        (hqueued.column hc)
    · have hagree := hcarried.coherent.columnsAgree
      rwa [ColumnsLead, hsize]
  · rintro _ _ ⟨hcarried, s, -, rfl⟩
    exact h.link hm hcarried.coherent

theorem ends_addNewRows (h : lp.Noted ∧ lp.matrix.solverColumns.size = lp.columns.size) :
    Ends syncAddedRows lp
      (fun _ t => ((t.Noted ∧ t.matrix.solverColumns.size = t.columns.size) ∧
        t.matrix.solverRows.size = t.rows.size) ∧ t.changedRows = lp.changedRows)
      fun _ t => t.Noted ∧ t.matrix.solverColumns.size = t.columns.size := by
  by_cases hnone : lp.matrix.solverRows.size = lp.rows.size
  · refine (ends_syncAddedRows_none hnone).mono_ok ?_
    rintro _ t rfl
    exact ⟨⟨h, hnone⟩, rfl⟩
  obtain ⟨hlp, hallColumns⟩ := h
  have hm := (hlp.coherent.sound.linkRows hlp.coherent.live_newRows).without
  have hheld : lp.linkNewRows.matrix.solverRows = lp.matrix.solverRows :=
    congrArg (·.solverRows) hm
  have hallColumns : lp.linkNewRows.matrix.solverColumns.size = lp.columns.size :=
    (congrArg (·.solverColumns.size) hm).trans hallColumns
  refine ((ends_syncAddedRows hlp.coherent hlp.rows.lead).and
    (ends_syncAddedRows_exactly hlp.coherent hnone)).mono ?_ ?_
  · rintro _ _ ⟨hcarried, s, flags, status, -, rfl⟩
    have hqueued := hlp.queued.link hm
    have hcolumns := hlp.columns.link hm
    have hunsynced := (congrArg ConstraintMatrix.synced hm).trans hlp.unsynced
    have hunmarked : lp.linkNewRows.attachNewRows.matrix.RowsUnmarked :=
      ConstraintMatrix.RowsUnmarked.attachRows (hlp.rows.link hm).unmarked _
    have hsize : lp.linkNewRows.attachNewRows.matrix.solverRows.size = lp.rows.size := by
      have hcount := size_newRows hlp.rows.lead
      rw [newRows, ← hheld] at hcount
      rw [attachNewRows, newRows, ConstraintMatrix.size_attachRows, List.length_zipIdx]
      exact hcount
    refine ⟨⟨⟨⟨trimmed_of_lines hcarried.coherent ⟨hqueued.column, fun {r row} hr hrow => ?_⟩
      hunsynced ⟨hcolumns.lead, hcolumns.size_le, hcolumns.unmarked⟩ ⟨?_, hsize.le, hunmarked⟩,
      hlp.changedColumns, fun r hr row hrow => ?_⟩, hallColumns⟩, hsize⟩, rfl⟩
    · exact ConstraintMatrix.attachRows_keeps (P := Row.IsKnown) (fun _ _ _ _ => rfl)
        (fun _ => hqueued.row hr) hrow
    · have hagree := hcarried.coherent.rowsAgree
      rwa [RowsLead, hsize]
    · exact ConstraintMatrix.attachRows_keeps (P := fun row => row.spec = row.sent)
        (fun _ _ _ => rfl) (hlp.rowsNoted.link hm r hr) hrow
  · rintro _ _ ⟨hcarried, s, -, rfl⟩
    exact ⟨hlp.link hm hcarried.coherent, hallColumns⟩

/-! ## All operations -/

/-- A relaxation that operations may have led to. -/
structure Tracked (lp : Relaxation σ) : Prop where
  coherent : lp.Coherent
  aware : lp.Aware

/-- What has to be told remains noted. -/
def Tracks (lp t : Relaxation σ) : Prop := lp.Tracked → t.Tracked

instance : IsPreorder (Relaxation σ) Tracks where
  refl _ := id
  trans _ _ _ h h' := h' ∘ h

theorem Syncing.tracked (h : lp.Syncing) : lp.Tracked :=
  ⟨h.coherent, h.queued, h.watched, fun hsynced => nomatch h.unsynced.symm.trans hsynced⟩

theorem Tracked.syncing (h : lp.Tracked) (hsynced : lp.matrix.synced = false) : lp.Syncing :=
  ⟨h.coherent, h.aware.queued, h.aware.watched, hsynced⟩

theorem along_tracks {x : RelaxationM σ α}
    (h : ∀ lp : Relaxation σ, lp.Tracked → Ends x lp (fun _ t => t.Tracked) fun _ t => t.Tracked) :
    Along Tracks x := by
  intro lp
  by_cases hlp : lp.Tracked
  · exact (h lp hlp).mono (fun _ _ ht _ => ht) fun _ _ ht _ => ht
  · exact (Ends.self x lp).mono (fun _ _ _ htracked => (hlp htracked).elim)
      fun _ _ _ htracked => (hlp htracked).elim

theorem Tracked.ends {x : RelaxationM σ α} (h : lp.Tracked) (hx : Along Tracks x) :
    Ends x lp (fun _ t => t.Tracked) fun _ t => t.Tracked :=
  (hx lp).mono (fun _ _ ht => ht h) fun _ _ ht => ht h

/-- When the solver was brought up to date, there is nothing to tell it any more. -/
theorem ends_sync (h : lp.Tracked) :
    Ends sync lp (fun _ t => t.Tracked ∧ t.matrix.synced = true) fun _ t => t.Tracked := by
  rw [sync, Ends.bind_iff, Ends.get_iff, Ends.ite_iff]
  refine ⟨fun hsynced => ?_, fun hsynced => ⟨h, by simpa using hsynced⟩⟩
  rw [Bool.not_eq_true'] at hsynced
  rw [Ends.bind_iff]
  refine (ends_trimColumns (h.syncing hsynced)).mono (fun _ t₁ h₁ => ?_) fun _ _ h => h.tracked
  rw [Ends.bind_iff]
  refine (ends_trimRows h₁.1 h₁.2).mono (fun _ t₂ h₂ => ?_) fun _ _ h => h.1.tracked
  rw [Ends.bind_iff]
  refine (ends_noteChangedColumns h₂).mono (fun _ t₃ h₃ => ?_) fun _ _ h => h.tracked
  rw [Ends.bind_iff]
  refine (ends_noteChangedRows h₃).mono (fun _ t₄ h₄ => ?_) fun _ _ h => h.1.tracked
  rw [Ends.bind_iff]
  refine (ends_addNewColumns h₄.1).mono (fun _ t₅ h₅ => ?_) fun _ _ h => h.tracked
  rw [Ends.bind_iff]
  refine (ends_addNewRows h₅.1).mono (fun _ t₆ h₆ => ?_) fun _ _ h => h.1.tracked
  rw [ends_modifyMatrix]
  obtain ⟨⟨⟨hnoted, hcolumns⟩, hrows⟩, hchangedRows⟩ := h₆
  have hcoherent : Coherent { t₆ with matrix := { t₆.matrix with synced := true } } :=
    ⟨ConstraintMatrix.Sound.congr (m := t₆.matrix) rfl hnoted.coherent.sound, hnoted.coherent.placed,
      hnoted.coherent.columnsAgree, hnoted.coherent.rowsAgree, hnoted.coherent.counts⟩
  refine ⟨⟨hcoherent, ⟨hnoted.queued.column, hnoted.queued.row⟩,
    ConstraintMatrix.watched_of_unmarked hnoted.columns.unmarked hnoted.rows.unmarked,
    fun _ => ?_⟩, rfl⟩
  exact {
    changedColumns := hnoted.changedColumns
    changedRows := hchangedRows.trans (h₅.2.trans h₄.2)
    columns := hcolumns
    rows := hrows
    firstChangedColumn := Nat.le_antisymm hcoherent.columnsAgree.le_left
      (hcolumns.symm.le.trans hnoted.columns.size_le)
    firstChangedRow := Nat.le_antisymm hcoherent.rowsAgree.le_left
      (hrows.symm.le.trans hnoted.rows.size_le) }

end Relaxation

end CertifiedLp
