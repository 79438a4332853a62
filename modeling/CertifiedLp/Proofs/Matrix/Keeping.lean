import Mathlib
import CertifiedLp.Proofs.Matrix.Blindness

/-!
# What columns and rows keep

No operation on the lists of coefficients touches what a line says, what the solver was told of it,
and where the solver has it. This holds of every run of these operations, whether the lists fit
together or not, and also of one that fails. The only thing that an edit leaves behind besides
coefficients is a mark on a line that the solver has to be told again, and every mark is behind the
first change that the matrix remembers.
-/

namespace CertifiedLp

/-- Where a column comes from, what it says, what the solver was told, and where the solver has
it. -/
def Column.told (c : Column) : VariableRef × ColumnSpec × ColumnSpec × Option Nat :=
  (c.origin, c.spec, c.sent, c.solverPosition)

/-- What a row says, what the solver was told, and where the solver has it. -/
def Row.told (r : Row) : RowSpec × RowSpec × Option Nat := (r.spec, r.sent, r.solverPosition)

/-- What an operation may do besides its work on coefficients. -/
structure Scope where
  /-- The rows that may be freed. -/
  gone : Set RowRef
  /-- Lines may be marked. -/
  marks : Prop

/-- Coefficients may be edited. -/
abbrev Scope.edits (gone : Set RowRef) : Scope := ⟨gone, True⟩

/-- Lines may move, but no coefficient is edited. -/
abbrev Scope.moves (gone : Set RowRef) : Scope := ⟨gone, False⟩

namespace ConstraintMatrix

variable {m m' t : ConstraintMatrix} {c : ColumnRef} {r : RowRef} {row : Row}
variable {E : LpError → ConstraintMatrix → Prop} {scope : Scope} {gone : Set RowRef}

/-- Every marked line is in the solver, at the first change or behind it, and the solver does not
know of the mark. -/
structure Watched (m : ConstraintMatrix) : Prop where
  column : ∀ {c}, (m.column c).coefficientChanged = true →
    m.synced = false ∧ ∃ i, (m.column c).solverPosition = some i ∧ m.firstChangedColumn ≤ i
  row : ∀ {r row}, m.row? r = some row → row.coefficientChanged = true →
    m.synced = false ∧ ∃ i, row.solverPosition = some i ∧ m.firstChangedRow ≤ i

/-- Marked lines stay watched where they are. -/
theorem Watched.of_lines (h : m.Watched) (hsynced : m'.synced = true → m.synced = true)
    (hfirstColumn : m'.firstChangedColumn ≤ m.firstChangedColumn)
    (hfirstRow : m'.firstChangedRow ≤ m.firstChangedRow)
    (hcolumn : ∀ {c}, (m'.column c).coefficientChanged = true →
      (m.column c).coefficientChanged = true ∧
        (m'.column c).solverPosition = (m.column c).solverPosition)
    (hrow : ∀ {r row'}, m'.row? r = some row' → row'.coefficientChanged = true →
      ∃ row, m.row? r = some row ∧ row.coefficientChanged = true ∧
        row'.solverPosition = row.solverPosition) : m'.Watched where
  column hmark' := by
    obtain ⟨hmark, hposition⟩ := hcolumn hmark'
    obtain ⟨hunsynced, i, hi, hle⟩ := h.column hmark
    exact ⟨Bool.eq_false_iff.mpr fun hs => (nomatch hunsynced.symm.trans (hsynced hs)), i,
      hposition.trans hi, hfirstColumn.trans hle⟩
  row hrow' hmark' := by
    obtain ⟨row, hrow, hmark, hposition⟩ := hrow hrow' hmark'
    obtain ⟨hunsynced, i, hi, hle⟩ := h.row hrow hmark
    exact ⟨Bool.eq_false_iff.mpr fun hs => (nomatch hunsynced.symm.trans (hsynced hs)), i,
      hposition.trans hi, hfirstRow.trans hle⟩

/-- No column is marked. -/
def ColumnsUnmarked (m : ConstraintMatrix) : Prop := ∀ c, (m.column c).coefficientChanged = false

/-- No row is marked. -/
def RowsUnmarked (m : ConstraintMatrix) : Prop :=
  ∀ {r row}, m.row? r = some row → row.coefficientChanged = false

/-- Without marks there is nothing to watch. -/
theorem watched_of_unmarked (hcolumns : m.ColumnsUnmarked) (hrows : m.RowsUnmarked) :
    m.Watched where
  column {c} hmark := nomatch (hcolumns c).symm.trans hmark
  row hr hmark := nomatch (hrows hr).symm.trans hmark

/-- A solver that counts as up to date knows of all marks. -/
theorem Watched.columnsUnmarked (h : m.Watched) (hsynced : m.synced = true) : m.ColumnsUnmarked :=
  fun _ => Bool.eq_false_iff.mpr fun hmark => nomatch (h.column hmark).1.symm.trans hsynced

theorem Watched.rowsUnmarked (h : m.Watched) (hsynced : m.synced = true) : m.RowsUnmarked :=
  fun hrow => Bool.eq_false_iff.mpr fun hmark => nomatch (h.row hrow hmark).1.symm.trans hsynced

/-- No line was marked. -/
structure MarksNothing (m m' : ConstraintMatrix) : Prop where
  column : ∀ {c}, (m'.column c).coefficientChanged = true → (m.column c).coefficientChanged = true
  row : ∀ {r row'}, m'.row? r = some row' → row'.coefficientChanged = true →
    ∃ row, m.row? r = some row ∧ row.coefficientChanged = true

instance : IsPreorder ConstraintMatrix MarksNothing where
  refl _ := ⟨id, fun {_ row} hrow hmark => ⟨row, hrow, hmark⟩⟩
  trans _ _ _ h h' := ⟨fun hmark => h.column (h'.column hmark), fun hrow' hmark' => by
    obtain ⟨row, hrow, hmark⟩ := h'.row hrow' hmark'
    exact h.row hrow hmark⟩

theorem marksNothing_trans {marks : Prop} (h : marks ∨ MarksNothing m t)
    (h' : marks ∨ MarksNothing t m') : marks ∨ MarksNothing m m' := by
  rcases h, h' with ⟨hmarks | hnone, hmarks' | hnone'⟩
  · exact .inl hmarks
  · exact .inl hmarks
  · exact .inl hmarks'
  · exact .inr (IsTrans.trans _ _ _ hnone hnone')

/-- Columns, and the rows that still exist, say the same, and the solver was told the same of
them. Some rows may be gone, and lines may have been marked. -/
structure Keeps (scope : Scope) (m m' : ConstraintMatrix) : Prop where
  size : m'.columns.size = m.columns.size
  nrRows : m'.rows.size = m.rows.size
  column : ∀ c, (m'.column c).told = (m.column c).told
  row : ∀ {r row'}, m'.row? r = some row' → ∃ row, m.row? r = some row ∧ row'.told = row.told ∧
    (row.coefficientChanged = true → row'.coefficientChanged = true)
  live : ∀ {r}, r ∉ scope.gone → (m.row? r).isSome = true → (m'.row? r).isSome = true
  columnChanged : ∀ {c}, (m.column c).coefficientChanged = true →
    (m'.column c).coefficientChanged = true
  marks : scope.marks ∨ MarksNothing m m'
  solverColumns : m'.solverColumns = m.solverColumns
  solverRows : m'.solverRows = m.solverRows
  firstChangedColumn : m'.firstChangedColumn ≤ m.firstChangedColumn
  firstChangedRow : m'.firstChangedRow ≤ m.firstChangedRow
  synced : m'.synced = true → m.synced = true
  unchanged : m'.synced = true →
    m'.firstChangedColumn = m.firstChangedColumn ∧ m'.firstChangedRow = m.firstChangedRow
  watched : m.Watched → m'.Watched

instance : IsPreorder ConstraintMatrix (Keeps scope) where
  refl m := ⟨rfl, rfl, fun _ => rfl, fun {_ row} h => ⟨row, h, rfl, id⟩, fun _ => id, id,
    .inr (refl m), rfl, rfl, Nat.le_refl _, Nat.le_refl _, id, fun _ => ⟨rfl, rfl⟩, id⟩
  trans m t m' h h' := {
    size := h'.size.trans h.size
    nrRows := h'.nrRows.trans h.nrRows
    column := fun c => (h'.column c).trans (h.column c)
    row := fun hrow' => by
      obtain ⟨row, hrow, htold, hmark⟩ := h'.row hrow'
      obtain ⟨row₀, hrow₀, htold₀, hmark₀⟩ := h.row hrow
      exact ⟨row₀, hrow₀, htold.trans htold₀, hmark ∘ hmark₀⟩
    live := fun hr hlive => h'.live hr (h.live hr hlive)
    columnChanged := fun hmark => h'.columnChanged (h.columnChanged hmark)
    marks := marksNothing_trans h.marks h'.marks
    solverColumns := h'.solverColumns.trans h.solverColumns
    solverRows := h'.solverRows.trans h.solverRows
    firstChangedColumn := Nat.le_trans h'.firstChangedColumn h.firstChangedColumn
    firstChangedRow := Nat.le_trans h'.firstChangedRow h.firstChangedRow
    synced := h.synced ∘ h'.synced
    unchanged := fun hsynced =>
      ⟨(h'.unchanged hsynced).1.trans (h.unchanged (h'.synced hsynced)).1,
        (h'.unchanged hsynced).2.trans (h.unchanged (h'.synced hsynced)).2⟩
    watched := h'.watched ∘ h.watched }

/-! ## Single changes -/

/-- A change of a column that concerns its coefficients, its activity or its values. -/
theorem Keeps.modifyColumn (m : ConstraintMatrix) (c : ColumnRef) {f : Column → Column}
    (htold : ∀ column, (f column).told = column.told)
    (hmark : ∀ column, (f column).coefficientChanged = column.coefficientChanged) :
    Keeps scope m (m.modifyColumn c f) := by
  have htold := column_modifyColumn_congr Column.told m c htold
  have hmark := column_modifyColumn_congr Column.coefficientChanged m c hmark
  refine ⟨Array.size_modify, rfl, htold, fun {_ row} h => ⟨row, h, rfl, id⟩,
    fun _ => id, fun {d} h => (hmark d).trans h, .inr ⟨fun {d} h => (hmark d).symm.trans h,
    fun {_ row} h hmark => ⟨row, h, hmark⟩⟩, rfl, rfl, Nat.le_refl _, Nat.le_refl _, id,
    fun _ => ⟨rfl, rfl⟩, fun h => ?_⟩
  exact h.of_lines id (Nat.le_refl _) (Nat.le_refl _)
    (fun {d} hd => ⟨(hmark d).symm.trans hd, congrArg (·.2.2.2) (htold d)⟩)
    fun {_ row} hr hmark => ⟨row, hr, hmark, rfl⟩

theorem isSome_row?_modifyRow (m : ConstraintMatrix) (r s : RowRef) (f : Row → Row) :
    ((m.modifyRow r f).row? s).isSome = (m.row? s).isSome := by
  rw [row?_modifyRow]
  split <;> simp

/-- A change of a row that concerns its coefficients, its activity or its values. -/
theorem Keeps.modifyRow (m : ConstraintMatrix) (r : RowRef) {f : Row → Row}
    (htold : ∀ row, m.row? r = some row → (f row).told = row.told)
    (hmark : ∀ row, m.row? r = some row → (f row).coefficientChanged = row.coefficientChanged) :
    Keeps scope m (m.modifyRow r f) := by
  have hrow {s : RowRef} {row' : Row} (h : (m.modifyRow r f).row? s = some row') :
      ∃ row, m.row? s = some row ∧ row'.told = row.told ∧
        row'.coefficientChanged = row.coefficientChanged := by
    rw [row?_modifyRow] at h
    split at h
    · next heq =>
      subst heq
      obtain ⟨row, hrow, rfl⟩ := Option.map_eq_some_iff.mp h
      exact ⟨row, hrow, htold row hrow, hmark row hrow⟩
    · exact ⟨row', h, rfl, rfl⟩
  refine ⟨rfl, Array.size_modify, fun _ => rfl, fun {s row'} h => ?_,
    fun _ h => (isSome_row?_modifyRow m r _ f).trans h, id, .inr ⟨id, fun h hmarked => ?_⟩, rfl, rfl,
    Nat.le_refl _, Nat.le_refl _, id, fun _ => ⟨rfl, rfl⟩, fun h => ?_⟩
  · obtain ⟨row, hrow, htold, hmark⟩ := hrow h
    exact ⟨row, hrow, htold, hmark.trans⟩
  · obtain ⟨row, hrow, -, hmark⟩ := hrow h
    exact ⟨row, hrow, hmark.symm.trans hmarked⟩
  · refine h.of_lines id (Nat.le_refl _) (Nat.le_refl _) (fun hd => ⟨hd, rfl⟩)
      fun {s row'} hs hmarked => ?_
    obtain ⟨row, hrow, htold, hmark⟩ := hrow hs
    exact ⟨row, hrow, hmark.symm.trans hmarked, congrArg (·.2.2) htold⟩

/-- Something may have changed from an earlier position on, and the solver does not know it. -/
theorem Keeps.changedFrom {i j : Nat} (hi : i ≤ m.firstChangedColumn) (hj : j ≤ m.firstChangedRow) :
    Keeps scope m { m with firstChangedColumn := i, firstChangedRow := j, synced := false } := by
  refine ⟨rfl, rfl, fun _ => rfl, fun {_ row} h => ⟨row, h, rfl, id⟩, fun _ => id, id,
    .inr ⟨id, fun {_ row} h hmark => ⟨row, h, hmark⟩⟩, rfl, rfl, hi, hj, fun h => (nomatch h),
    fun h => (nomatch h), fun h => ?_⟩
  exact h.of_lines (fun hs => (nomatch hs)) hi hj (fun hc => ⟨hc, rfl⟩)
    fun {_ row} hr hmark => ⟨row, hr, hmark, rfl⟩

/-- The solver is not up to date any more. -/
theorem Keeps.desync (m : ConstraintMatrix) : Keeps scope m { m with synced := false } :=
  .changedFrom (Nat.le_refl _) (Nat.le_refl _)

theorem along_updateRow (r : RowRef) {f : Row → Row} (htold : ∀ row, (f row).told = row.told)
    (hmark : ∀ row, (f row).coefficientChanged = row.coefficientChanged) :
    Along (Keeps scope) (updateRow r f) := fun m => ends_updateRow_iff.mpr
  ⟨fun _ => .modifyRow m r (fun row _ => htold row) fun row _ => hmark row, fun _ => refl m⟩

/-- The lists of coefficients are not kept. -/
theorem blindToEntries_keeps : BlindToEntries (Keeps scope) where
  column m c f hf := .modifyColumn m c (fun column => by rw [hf]; rfl) fun column => by rw [hf]
  row m r f hf := .modifyRow m r (fun row _ => by rw [hf]; rfl) fun row _ => by rw [hf]

theorem along_setColumnActivePosition (c : ColumnRef) (position : Option Nat) :
    Along (Keeps scope) (setColumnActivePosition c position) :=
  blindToEntries_keeps.setColumnActivePosition fun m =>
    .modifyColumn m c (fun _ => rfl) fun _ => rfl

theorem along_setRowActivePosition (r : RowRef) (position : Option Nat) :
    Along (Keeps scope) (setRowActivePosition r position) :=
  blindToEntries_keeps.setRowActivePosition fun m =>
    .modifyRow m r (fun _ _ => rfl) fun _ _ => rfl

/-- What is freed is not there any more, and all else is kept. -/
theorem keeps_withoutRow (m : ConstraintMatrix) (hr : r ∈ scope.gone) :
    Keeps scope m { m with rows := m.rows.setIfInBounds r.index none } := by
  have hrow {s : RowRef} {row : Row}
      (h : ConstraintMatrix.row? { m with rows := m.rows.setIfInBounds r.index none } s =
        some row) : m.row? s = some row := by
    rw [row?, Array.getElem?_setIfInBounds] at h
    split at h
    · split at h <;> cases h
    · exact h
  refine ⟨rfl, Array.size_setIfInBounds, fun _ => rfl, fun {_ row} h => ⟨row, hrow h, rfl, id⟩,
    fun {s} hs hlive => ?_, id, .inr ⟨id, fun {_ row} h hmark => ⟨row, hrow h, hmark⟩⟩, rfl, rfl,
    Nat.le_refl _, Nat.le_refl _, id, fun _ => ⟨rfl, rfl⟩,
    fun h => ⟨h.column, fun hs => h.row (hrow hs)⟩⟩
  have hne : r.index ≠ s.index := fun heq =>
    hs ((Reference.index_injective heq : r = s) ▸ hr)
  rwa [row?, Array.getElem?_setIfInBounds_ne hne]

theorem along_freeRow (hr : r ∈ scope.gone) : Along (Keeps scope) (freeRow r) :=
  blindToEntries_keeps.freeRow fun m => keeps_withoutRow m hr

/-! ## Edits -/

/-- If the solver has both lines of a coefficient, one of them is marked. -/
def Announced (m : ConstraintMatrix) (c : ColumnRef) (r : RowRef) : Prop :=
  ∀ row, m.row? r = some row → (m.column c).solverPosition.isSome = true →
    row.solverPosition.isSome = true →
      (m.column c).coefficientChanged = true ∨ row.coefficientChanged = true

/-- A marked line is behind the first change from now on. -/
theorem keeps_markRow {i : Nat} (hrow : m.row? r = some row) (hi : row.solverPosition = some i) :
    Keeps (.edits gone) m { m.modifyRow r ({ · with coefficientChanged := true }) with
      firstChangedRow := min m.firstChangedRow i, synced := false } := by
  have hmarked {s : RowRef} {row' : Row}
      (h : (m.modifyRow r ({ · with coefficientChanged := true })).row? s = some row') :
      ∃ row₀, m.row? s = some row₀ ∧ row'.told = row₀.told ∧
        (row'.coefficientChanged = row₀.coefficientChanged ∨
          s = r ∧ row'.coefficientChanged = true) := by
    rw [row?_modifyRow] at h
    split at h
    · next heq =>
      obtain ⟨row₀, hrow₀, rfl⟩ := Option.map_eq_some_iff.mp h
      exact ⟨row₀, hrow₀, rfl, .inr ⟨heq.symm, rfl⟩⟩
    · exact ⟨row', h, rfl, .inl rfl⟩
  refine ⟨rfl, Array.size_modify, fun _ => rfl, fun {s row'} h => ?_,
    fun _ h => (isSome_row?_modifyRow m r _ _).trans h, id, .inl trivial, rfl, rfl, Nat.le_refl _,
    Nat.min_le_left _ _, fun h => (nomatch h), fun h => (nomatch h),
    fun h => ⟨fun hc => ⟨rfl, (h.column hc).2⟩, fun {s row'} hs hmark => ?_⟩⟩
  · obtain ⟨row₀, hrow₀, htold, hmark | ⟨-, hmark⟩⟩ := hmarked h
    · exact ⟨row₀, hrow₀, htold, hmark.trans⟩
    · exact ⟨row₀, hrow₀, htold, fun _ => hmark⟩
  · obtain ⟨row₀, hrow₀, htold, hsame⟩ := hmarked hs
    have hposition : row'.solverPosition = row₀.solverPosition := congrArg (·.2.2) htold
    rw [hposition]
    rcases hsame with hsame | ⟨rfl, -⟩
    · obtain ⟨-, j, hj, hle⟩ := h.row hrow₀ (hsame.symm.trans hmark)
      exact ⟨rfl, j, hj, Nat.le_trans (Nat.min_le_left _ _) hle⟩
    · rw [hrow] at hrow₀
      cases hrow₀
      exact ⟨rfl, i, hi, Nat.min_le_right _ _⟩

theorem keeps_markColumn {i : Nat} (hi : (m.column c).solverPosition = some i) :
    Keeps (.edits gone) m { m.modifyColumn c ({ · with coefficientChanged := true }) with
      firstChangedColumn := min m.firstChangedColumn i, synced := false } := by
  have hc : c.index < m.columns.size := lt_size_of_column_ne fun h => by
    rw [h] at hi
    cases hi
  have hmarked (d : ColumnRef) :
      ((m.modifyColumn c ({ · with coefficientChanged := true })).column d).told =
        (m.column d).told ∧
      (((m.modifyColumn c ({ · with coefficientChanged := true })).column d).coefficientChanged =
        (m.column d).coefficientChanged ∨ d = c ∧
        ((m.modifyColumn c ({ · with coefficientChanged := true })).column d).coefficientChanged =
          true) := by
    by_cases hd : c = d
    · subst hd
      rw [column_modifyColumn_self hc]
      exact ⟨rfl, .inr ⟨rfl, rfl⟩⟩
    · rw [column_modifyColumn_of_ne hd]
      exact ⟨rfl, .inl rfl⟩
  refine ⟨Array.size_modify, rfl, fun d => (hmarked d).1, fun {_ row} h => ⟨row, h, rfl, id⟩,
    fun _ => id, fun {d} h => ?_, .inl trivial, rfl, rfl, Nat.min_le_left _ _, Nat.le_refl _,
    fun h => (nomatch h), fun h => (nomatch h),
    fun h => ⟨fun {d} hd => ?_, fun hr hmark => ⟨rfl, (h.row hr hmark).2⟩⟩⟩
  · rcases (hmarked d).2 with hsame | ⟨-, hmark⟩
    · exact hsame.trans h
    · exact hmark
  · have hposition := congrArg (·.2.2.2) (hmarked d).1
    refine ⟨rfl, ?_⟩
    rcases (hmarked d).2 with hsame | ⟨rfl, -⟩
    · obtain ⟨-, j, hj, hle⟩ := h.column (hsame.symm.trans hd)
      exact ⟨j, hposition.trans hj, Nat.le_trans (Nat.min_le_left _ _) hle⟩
    · exact ⟨i, hposition.trans hi, Nat.min_le_right _ _⟩

/-- After a coefficient changed, the solver will be told one of its lines again. -/
theorem ends_announceChange_keeps (c : ColumnRef) (r : RowRef) (m : ConstraintMatrix) :
    Ends (announceChange c r) m
      (fun _ m' => Keeps (.edits gone) m m' ∧ m'.Announced c r ∧ m'.synced = false)
      fun _ m' => Keeps (.edits gone) m m' := by
  cases hrow : m.row? r with
  | none =>
    rw [announceChange, Ends.bind_iff, ends_updateRow_iff]
    exact ⟨fun h => (by rw [hrow] at h; cases h), fun _ => refl m⟩
  | some row =>
    have hexpired : Keeps (.edits gone) m (m.modifyRow r Row.expireActivity) :=
      .modifyRow m r (fun _ _ => rfl) fun _ _ => rfl
    have hrow' : (m.modifyRow r Row.expireActivity).row? r = some row.expireActivity := by
      rw [row?_modifyRow, if_pos rfl, hrow, Option.map_some]
    simp only [announceChange, Ends.bind_iff, ends_updateRow hrow, Ends.get_iff, ends_getRow hrow']
    split
    · next i j hi hj =>
      rw [Ends.ite_iff]
      constructor
      · intro _
        simp only [Ends.bind_iff, ends_updateRow hrow', Ends.modify_iff]
        refine ⟨IsTrans.trans _ _ _ hexpired (keeps_markRow hrow' hj), fun row' h _ _ => .inr ?_,
          trivial⟩
        have hmarked : ((m.modifyRow r Row.expireActivity).modifyRow r
            ({ · with coefficientChanged := true })).row? r = some row' := h
        rw [row?_modifyRow, if_pos rfl, hrow'] at hmarked
        rw [← Option.some.inj hmarked]
      · intro _
        simp only [Ends.bind_iff, ends_updateColumn, Ends.modify_iff]
        refine ⟨IsTrans.trans _ _ _ hexpired (keeps_markColumn hi), fun row' _ _ _ => .inl ?_,
          trivial⟩
        have hc : c.index < (m.modifyRow r Row.expireActivity).columns.size :=
          lt_size_of_column_ne fun h => by
            rw [h] at hi
            cases hi
        exact congrArg Column.coefficientChanged (column_modifyColumn_self hc _)
    · next hnone =>
      refine ⟨IsTrans.trans _ _ _ hexpired (.desync _), fun row' h hc hr => ?_, rfl⟩
      have heq : row' = row.expireActivity := Option.some.inj (h.symm.trans hrow')
      obtain ⟨i, hi⟩ := Option.isSome_iff_exists.mp hc
      obtain ⟨j, hj⟩ := Option.isSome_iff_exists.mp hr
      exact (hnone i j hi (heq ▸ hj)).elim

theorem ends_announceChange_announced (c : ColumnRef) (r : RowRef) (m : ConstraintMatrix) :
    Ends (announceChange c r) m (fun _ m' => m'.Announced c r) fun _ _ => True := by
  have hkeeps : Ends (announceChange c r) m
      (fun _ m' => Keeps (.edits ∅) m m' ∧ m'.Announced c r ∧ m'.synced = false)
      fun _ m' => Keeps (.edits ∅) m m' :=
    ends_announceChange_keeps c r m
  exact hkeeps.mono (fun _ _ h => h.2.1) fun _ _ _ => trivial

theorem blindToEdits_keeps : BlindToEdits (Keeps (.edits gone)) where
  toBlindToEntries := blindToEntries_keeps
  noteIntegrality c r _ :=
    .bind (along_getColumn c) fun _ => along_updateRow r (fun _ => rfl) fun _ => rfl
  announceChange c r m := (ends_announceChange_keeps c r m).mono (fun _ _ h => h.1) fun _ _ h => h

/-! ## Order -/

theorem along_delayOrder (r : RowRef) : Along (Keeps scope) (delayOrder r) :=
  .bind (along_getRow r) fun _ => .ite .throw_bind <| along_updateRow r (fun _ => rfl) fun _ => rfl

theorem along_mergeRow (r : RowRef) : Along (Keeps scope) (mergeRow r) := fun m => by
  cases hrow : m.row? r with
  | none =>
    rw [mergeRow, Ends.bind_iff, ends_getRow_missing hrow]
    exact refl m
  | some row =>
    rw [mergeRow, Ends.bind_iff, ends_getRow hrow, Ends.ite_iff]
    refine ⟨fun _ => refl m, fun _ => ?_⟩
    rw [Ends.bind_iff, Ends.get_iff, ends_updateRow hrow]
    have hsame {row' : Row} (h : m.row? r = some row') : row' = row :=
      Option.some.inj (h.symm.trans hrow)
    exact .modifyRow m r (fun _ h => by rw [hsame h]; rfl) fun _ h => by rw [hsame h]; rfl

theorem along_forceOrder (r : RowRef) : Along (Keeps scope) (forceOrder r) :=
  .bind (along_getRow r) fun _ => .ite (along_mergeRow r) .pure

end ConstraintMatrix

end CertifiedLp
