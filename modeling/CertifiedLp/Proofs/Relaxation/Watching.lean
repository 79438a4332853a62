import Mathlib
import CertifiedLp.Proofs.Relaxation.Stages

/-!
# Marked lines

A line whose coefficients were edited while the solver had it is marked, and the first change that the
matrix remembers is not behind it. So the deletion of lines that the solver should not have reaches
every marked line, and none is left.
-/

namespace CertifiedLp

namespace ConstraintMatrix

variable {m : ConstraintMatrix} {c d : ColumnRef} {r s : RowRef} {cs : List ColumnRef}
variable {rs : List RowRef} {row : Row}

/-! ## Properties of lines that changes keep -/

section Columns

variable {P : Column → Prop} {f : Column → Column}

theorem modifyColumn_keeps (hf : ∀ column, P column → P (f column)) (d : ColumnRef)
    (h : P (m.column c)) : P ((m.modifyColumn d f).column c) := by
  by_cases hdc : d = c
  · subst hdc
    by_cases hd : d.index < m.columns.size
    · rw [column_modifyColumn_self hd]
      exact hf _ h
    · rw [column_of_size_le (Nat.not_lt.mp hd)] at h
      rwa [column_of_size_le (Array.size_modify.le.trans (Nat.not_lt.mp hd))]
  · rwa [column_modifyColumn_of_ne hdc]

theorem modifyColumns_keeps (hf : ∀ column, P column → P (f column)) (h : P (m.column c)) :
    P ((m.modifyColumns cs f).column c) := by
  induction cs using List.reverseRecOn with
  | nil => exact h
  | append_singleton cs d ih =>
    rw [modifyColumns_concat]
    exact modifyColumn_keeps hf d ih

theorem size_modifyColumns (m : ConstraintMatrix) (cs : List ColumnRef) (f : Column → Column) :
    (m.modifyColumns cs f).columns.size = m.columns.size := by
  induction cs using List.reverseRecOn with
  | nil => rfl
  | append_singleton cs d ih =>
    rw [modifyColumns_concat]
    exact Array.size_modify.trans ih

/-- A change that brings something about in all cases does so for the columns that are changed. -/
theorem modifyColumns_establishes (hf : ∀ column, P (f column)) (hc : c ∈ cs)
    (hhas : c.index < m.columns.size) : P ((m.modifyColumns cs f).column c) := by
  induction cs using List.reverseRecOn with
  | nil => exact (List.not_mem_nil hc).elim
  | append_singleton cs d ih =>
    rw [modifyColumns_concat]
    rcases List.mem_append.mp hc with hc | hc
    · exact modifyColumn_keeps (fun column _ => hf column) d (ih hc)
    · obtain rfl := List.mem_singleton.mp hc
      rw [column_modifyColumn_self (by rwa [size_modifyColumns])]
      exact hf _

theorem attachColumns_keeps {xs : List (ColumnRef × Nat)}
    (hf : ∀ column i, P column → P (column.attach i)) (h : P (m.column c)) :
    P ((m.attachColumns xs).column c) := by
  induction xs using List.reverseRecOn with
  | nil => exact h
  | append_singleton xs x ih =>
    rw [attachColumns_concat]
    exact modifyColumn_keeps (fun column => hf column x.2) x.1 ih

theorem size_attachColumns (m : ConstraintMatrix) (xs : List (ColumnRef × Nat)) :
    (m.attachColumns xs).solverColumns.size = m.solverColumns.size + xs.length := by
  induction xs using List.reverseRecOn with
  | nil => rfl
  | append_singleton xs x ih =>
    rw [attachColumns_concat, Array.size_push, ih, List.length_append]
    rfl

/-- What is not among the lines that are changed stays. -/
theorem column_modifyColumns_of_notMem {cs : List ColumnRef} (hc : c ∉ cs) (f : Column → Column) :
    (m.modifyColumns cs f).column c = m.column c := by
  induction cs using List.reverseRecOn with
  | nil => rfl
  | append_singleton cs d ih =>
    have hd : d ≠ c := fun heq => hc (by simp [heq])
    rw [modifyColumns_concat, column_modifyColumn_of_ne hd, ih fun h => hc (by simp [h])]

end Columns

section Rows

variable {P : Row → Prop} {f : Row → Row}

theorem modifyRow_keeps (hf : ∀ row, P row → P (f row)) (s : RowRef)
    (h : ∀ row, m.row? r = some row → P row) (hrow : (m.modifyRow s f).row? r = some row) : P row := by
  rw [row?_modifyRow] at hrow
  split at hrow
  · obtain ⟨row₀, hrow₀, rfl⟩ := Option.map_eq_some_iff.mp hrow
    exact hf row₀ (h row₀ hrow₀)
  · exact h row hrow

theorem modifyRows_keeps (hf : ∀ row, P row → P (f row)) (h : ∀ row, m.row? r = some row → P row)
    (hrow : (m.modifyRows rs f).row? r = some row) : P row := by
  induction rs using List.reverseRecOn generalizing row with
  | nil => exact h row hrow
  | append_singleton rs s ih =>
    rw [modifyRows_concat] at hrow
    exact modifyRow_keeps hf s (fun _ => ih) hrow

theorem modifyRows_establishes (hf : ∀ row, P (f row)) (hr : r ∈ rs)
    (hrow : (m.modifyRows rs f).row? r = some row) : P row := by
  induction rs using List.reverseRecOn generalizing row with
  | nil => exact (List.not_mem_nil hr).elim
  | append_singleton rs s ih =>
    rw [modifyRows_concat] at hrow
    rcases List.mem_append.mp hr with hr | hr
    · exact modifyRow_keeps (fun row _ => hf row) s (fun _ => ih hr) hrow
    · obtain rfl := List.mem_singleton.mp hr
      rw [row?_modifyRow, if_pos rfl] at hrow
      obtain ⟨row, -, rfl⟩ := Option.map_eq_some_iff.mp hrow
      exact hf row

theorem attachRows_keeps {xs : List (RowRef × Nat)} (hf : ∀ row i, P row → P (row.attach i))
    (h : ∀ row, m.row? r = some row → P row) (hrow : (m.attachRows xs).row? r = some row) :
    P row := by
  induction xs using List.reverseRecOn generalizing row with
  | nil => exact h row hrow
  | append_singleton xs x ih =>
    rw [attachRows_concat] at hrow
    exact modifyRow_keeps (fun row => hf row x.2) x.1 (fun _ => ih) hrow

theorem size_attachRows (m : ConstraintMatrix) (xs : List (RowRef × Nat)) :
    (m.attachRows xs).solverRows.size = m.solverRows.size + xs.length := by
  induction xs using List.reverseRecOn with
  | nil => rfl
  | append_singleton xs x ih =>
    rw [attachRows_concat, Array.size_push, ih, List.length_append]
    rfl

theorem row?_modifyRows_of_notMem {rs : List RowRef} (hr : r ∉ rs) (f : Row → Row) :
    (m.modifyRows rs f).row? r = m.row? r := by
  induction rs using List.reverseRecOn with
  | nil => rfl
  | append_singleton rs s ih =>
    have hs : s ≠ r := fun heq => hr (by simp [heq])
    rw [modifyRows_concat, row?_modifyRow, if_neg hs, ih fun h => hr (by simp [h])]

end Rows

/-! ## Changes that mark nothing -/

theorem ColumnsUnmarked.modifyColumns (h : m.ColumnsUnmarked) {f : Column → Column}
    (hf : ∀ column, column.coefficientChanged = false → (f column).coefficientChanged = false) :
    (m.modifyColumns cs f).ColumnsUnmarked :=
  fun c => modifyColumns_keeps (P := (·.coefficientChanged = false)) hf (h c)

theorem RowsUnmarked.modifyRows (h : m.RowsUnmarked) {f : Row → Row}
    (hf : ∀ row, row.coefficientChanged = false → (f row).coefficientChanged = false) :
    (m.modifyRows rs f).RowsUnmarked :=
  fun hrow => modifyRows_keeps (P := (·.coefficientChanged = false)) hf (fun _ hrow => h hrow) hrow

/-- What is attached is not marked any more. -/
theorem ColumnsUnmarked.attachColumns (h : m.ColumnsUnmarked) (xs : List (ColumnRef × Nat)) :
    (m.attachColumns xs).ColumnsUnmarked :=
  fun c => attachColumns_keeps (P := (·.coefficientChanged = false)) (fun _ _ _ => rfl) (h c)

theorem RowsUnmarked.attachRows (h : m.RowsUnmarked) (xs : List (RowRef × Nat)) :
    (m.attachRows xs).RowsUnmarked :=
  fun hrow => attachRows_keeps (P := (·.coefficientChanged = false)) (fun _ _ _ => rfl)
    (fun _ hrow => h hrow) hrow

/-- A column says something else. -/
theorem Watched.respecify (h : m.Watched) (c : ColumnRef) (spec : ColumnSpec) {b : Bool}
    (hb : b = true → m.synced = true) :
    Watched { m.modifyColumn c ({ · with spec }) with synced := b } := by
  have hcolumn {β : Type} (g : Column → β) (hg : ∀ column : Column, g { column with spec } = g column)
      (d : ColumnRef) : g ((m.modifyColumn c ({ · with spec })).column d) = g (m.column d) :=
    column_modifyColumn_congr g m c hg d
  exact h.of_lines hb (Nat.le_refl _) (Nat.le_refl _) (fun {d} hmark =>
    ⟨(hcolumn Column.coefficientChanged (fun _ => rfl) d).symm.trans hmark,
      hcolumn Column.solverPosition (fun _ => rfl) d⟩)
    fun {_ row} hrow hmark => ⟨row, hrow, hmark, rfl⟩

/-- A row that is there after one of them says something else was there before. -/
theorem exists_row_restated {f : Row → Row} {spec : RowSpec} {row' : Row}
    (hrow : m.row? r = some row) (hf : Relaxation.Restates f row spec)
    (h : (m.modifyRow r f).row? s = some row') : ∃ row, m.row? s = some row ∧
      row'.solverPosition = row.solverPosition ∧ row'.sent = row.sent ∧
        row'.coefficientChanged = row.coefficientChanged := by
  rw [row?_modifyRow] at h
  split at h
  · next heq =>
    subst heq
    rw [hrow, Option.map_some, Option.some_inj] at h
    subst h
    exact ⟨row, hrow, hf.congr Row.solverPosition (fun _ => rfl) row,
      hf.congr Row.sent (fun _ => rfl) row, hf.congr Row.coefficientChanged (fun _ => rfl) row⟩
  · exact ⟨row', h, rfl, rfl, rfl⟩

/-- A row says something else. -/
theorem Watched.rowRespecify (h : m.Watched) {f : Row → Row} {spec : RowSpec}
    (hrow : m.row? r = some row) (hf : Relaxation.Restates f row spec) {b : Bool}
    (hb : b = true → m.synced = true) : Watched { m.modifyRow r f with synced := b } := by
  refine h.of_lines hb (Nat.le_refl _) (Nat.le_refl _) (fun hmark => ⟨hmark, rfl⟩)
    fun {s row'} hrow' hmark => ?_
  obtain ⟨row₀, hrow₀, hposition, -, hsame⟩ := exists_row_restated hrow hf hrow'
  exact ⟨row₀, hrow₀, hsame.symm.trans hmark, hposition⟩

theorem Watched.pushColumn (h : m.Watched) {column : Column}
    (hunmarked : column.coefficientChanged = false) : (m.pushColumn column).1.Watched := by
  refine h.of_lines id (Nat.le_refl _) (Nat.le_refl _) (fun {d} hmark => ?_)
    fun {_ row} hrow hmark => ⟨row, hrow, hmark, rfl⟩
  rw [column_pushColumn] at hmark ⊢
  split at hmark
  · exact nomatch hunmarked.symm.trans hmark
  · next hne => exact ⟨hmark, by rw [if_neg hne]⟩

theorem Watched.pushRow (h : m.Watched) {row : Row} (hunmarked : row.coefficientChanged = false) :
    (m.pushRow row).1.Watched := by
  refine h.of_lines id (Nat.le_refl _) (Nat.le_refl _) (fun hmark => ⟨hmark, rfl⟩)
    fun {s row'} hrow' hmark => ?_
  rw [row?_pushRow] at hrow'
  split at hrow'
  · obtain rfl := Option.some.inj hrow'
    exact nomatch hunmarked.symm.trans hmark
  · exact ⟨row', hrow', hmark, rfl⟩

end ConstraintMatrix

namespace Relaxation

variable {σ : Type} [Solver σ] {lp : Relaxation σ} {c : ColumnRef} {r : RowRef} {row : Row} {i : Nat}

theorem Coherent.solverPosition_column (h : lp.Coherent) (c : ColumnRef) (i : Nat) :
    (lp.matrix.column c).solverPosition = some i ↔ lp.matrix.solverColumns[i]? = some c :=
  h.placed.solverColumns c trivial i

theorem Coherent.solverPosition_row (h : lp.Coherent) (hrow : lp.matrix.row? r = some row) (i : Nat) :
    row.solverPosition = some i ↔ lp.matrix.solverRows[i]? = some r := by
  have hplace := ConstraintMatrix.row_places hrow
  have hposition := h.placed.solverRows r (congrArg Option.isSome hplace) i
  rwa [Places.solverRow, hplace] at hposition

/-- Before the first position at which the solver has to delete columns, no column is marked. -/
theorem unmarked_of_lt_firstStaleColumn (hlp : lp.Coherent) (hwatched : lp.matrix.Watched)
    (hi : lp.matrix.solverColumns[i]? = some c) (hlt : i < lp.firstStaleColumn) :
    (lp.matrix.column c).coefficientChanged = false := by
  by_contra hmark
  rw [Bool.not_eq_false] at hmark
  obtain ⟨-, k, hk, hle⟩ := hwatched.column hmark
  obtain rfl : i = k :=
    Option.some.inj (((hlp.solverPosition_column c i).mpr hi).symm.trans hk)
  have htest := test_of_lt_countWhile (Nat.sub_lt_left_of_lt_add hle hlt)
  rw [Nat.add_sub_cancel' hle] at htest
  split at htest
  · next held active hheld _ =>
    simp only [Bool.and_eq_true, beq_iff_eq, Bool.not_eq_true'] at htest
    obtain rfl : held = c := Option.some.inj (hheld.symm.trans hi)
    rw [← htest.1, hmark] at htest
    cases htest.2
  · cases htest

theorem unmarked_of_lt_firstStaleRow (hlp : lp.Coherent) (hwatched : lp.matrix.Watched)
    (hrow : lp.matrix.row? r = some row) (hi : lp.matrix.solverRows[i]? = some r)
    (hlt : i < lp.firstStaleRow) : row.coefficientChanged = false := by
  by_contra hmark
  rw [Bool.not_eq_false] at hmark
  obtain ⟨-, k, hk, hle⟩ := hwatched.row hrow hmark
  obtain rfl : i = k :=
    Option.some.inj (((hlp.solverPosition_row hrow i).mpr hi).symm.trans hk)
  have htest := test_of_lt_countWhile (Nat.sub_lt_left_of_lt_add hle hlt)
  rw [Nat.add_sub_cancel' hle] at htest
  split at htest
  · next held active hheld _ =>
    obtain rfl : held = r := Option.some.inj (hheld.symm.trans hi)
    rw [Bool.and_eq_true, beq_iff_eq] at htest
    rw [← htest.1, hrow, Option.any_some, hmark] at htest
    cases htest.2
  · cases htest

theorem unmarked_dropColumns (hlp : lp.Coherent) (hwatched : lp.matrix.Watched) :
    (lp.matrix.dropColumns lp.firstStaleColumn).ColumnsUnmarked := by
  intro c
  by_cases hmark : (lp.matrix.column c).coefficientChanged = true
  · obtain ⟨-, i, hi, -⟩ := hwatched.column hmark
    have hget := (hlp.solverPosition_column c i).mp hi
    have hge : lp.firstStaleColumn ≤ i := by
      by_contra hlt
      rw [unmarked_of_lt_firstStaleColumn hlp hwatched hget (Nat.not_le.mp hlt)] at hmark
      cases hmark
    have hlt := (Array.getElem?_eq_some_iff.mp hget).1
    have hmem : c ∈ (lp.matrix.solverColumns.extract lp.firstStaleColumn
        lp.matrix.solverColumns.size).toList := by
      rw [Array.mem_toList_iff, Array.mem_iff_getElem?]
      refine ⟨i - lp.firstStaleColumn, ?_⟩
      rw [Array.getElem?_extract, if_pos (by omega), Nat.add_sub_cancel' hge, hget]
    exact ConstraintMatrix.modifyColumns_establishes (P := (·.coefficientChanged = false))
      (fun _ => rfl) hmem (ConstraintMatrix.lt_size_of_column_ne fun hdefault => by
        rw [hdefault] at hi
        cases hi)
  · exact ConstraintMatrix.modifyColumns_keeps (P := (·.coefficientChanged = false))
      (fun _ _ => rfl) (Bool.eq_false_iff.mpr hmark)

theorem unmarked_dropRows (hlp : lp.Coherent) (hwatched : lp.matrix.Watched) :
    (lp.matrix.dropRows lp.firstStaleRow).RowsUnmarked := by
  intro r row hrow
  by_cases hmem : r ∈ (lp.matrix.solverRows.extract lp.firstStaleRow
      lp.matrix.solverRows.size).toList
  · exact ConstraintMatrix.modifyRows_establishes (P := (·.coefficientChanged = false))
      (fun _ => rfl) hmem hrow
  · have hrow₀ : lp.matrix.row? r = some row :=
      (ConstraintMatrix.row?_modifyRows_of_notMem hmem _).symm.trans hrow
    by_contra hmark
    rw [Bool.not_eq_false] at hmark
    obtain ⟨-, i, hi, -⟩ := hwatched.row hrow₀ hmark
    have hget := (hlp.solverPosition_row hrow₀ i).mp hi
    have hlt := (Array.getElem?_eq_some_iff.mp hget).1
    rcases Nat.lt_or_ge i lp.firstStaleRow with hstale | hge
    · rw [unmarked_of_lt_firstStaleRow hlp hwatched hrow₀ hget hstale] at hmark
      cases hmark
    · refine hmem (Array.mem_toList_iff.mpr (Array.mem_iff_getElem?.mpr ⟨i - lp.firstStaleRow, ?_⟩))
      rw [Array.getElem?_extract, if_pos (by omega), Nat.add_sub_cancel' hge, hget]

end Relaxation

end CertifiedLp
