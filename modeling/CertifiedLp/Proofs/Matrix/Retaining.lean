import Mathlib
import CertifiedLp.Proofs.Matrix.Blindness

/-!
# What lines retain

The values of a line that were put aside, and whether a row delays its order, are none of the business
of the operations on coefficients, the few apart that put the order of a row off or make up for it.
-/

namespace CertifiedLp

namespace ConstraintMatrix

variable {m m' : ConstraintMatrix} {c : ColumnRef} {r : RowRef} {ordered : Set RowRef}

/-- The lines that existed before, and still do, have the same values put aside, and rows still
delay their order or not, unless it is about their order. -/
structure Retains (ordered : Set RowRef) (m m' : ConstraintMatrix) : Prop where
  nrColumns : m.columns.size ≤ m'.columns.size
  nrRows : m.rows.size ≤ m'.rows.size
  column : ∀ {c}, c.index < m.columns.size → (m'.column c).stored = (m.column c).stored
  row : ∀ {r row'}, r.index < m.rows.size → m'.row? r = some row' →
    ∃ row, m.row? r = some row ∧ row'.stored = row.stored ∧
      (r ∉ ordered → row'.delayed = row.delayed)

instance : IsPreorder ConstraintMatrix (Retains ordered) where
  refl _ := ⟨Nat.le_refl _, Nat.le_refl _, fun _ => rfl, fun {_ row} _ h => ⟨row, h, rfl, fun _ => rfl⟩⟩
  trans _ _ _ h h' := {
    nrColumns := h.nrColumns.trans h'.nrColumns
    nrRows := h.nrRows.trans h'.nrRows
    column := fun hc => (h'.column (hc.trans_le h.nrColumns)).trans (h.column hc)
    row := fun hr hrow' => by
      obtain ⟨row, hrow, hstored', hdelayed'⟩ := h'.row (hr.trans_le h.nrRows) hrow'
      obtain ⟨row₀, hrow₀, hstored, hdelayed⟩ := h.row hr hrow
      exact ⟨row₀, hrow₀, hstored'.trans hstored, fun hr => (hdelayed' hr).trans (hdelayed hr)⟩ }

theorem Retains.of_row (h : Retains ordered m m') {row row' : Row} (hrow : m.row? r = some row)
    (hrow' : m'.row? r = some row') :
    row'.stored = row.stored ∧ (r ∉ ordered → row'.delayed = row.delayed) := by
  have hr : r.index < m.rows.size := by
    by_contra hle
    rw [row?_of_size_le (Nat.not_lt.mp hle)] at hrow
    cases hrow
  obtain ⟨row₀, hrow₀, hsame⟩ := h.row hr hrow'
  obtain rfl := Option.some.inj (hrow₀.symm.trans hrow)
  exact hsame

/-! ## Single changes -/

/-- A change of a column that does not concern the values that were put aside. -/
theorem Retains.modifyColumn (m : ConstraintMatrix) (c : ColumnRef) {f : Column → Column}
    (h : ∀ column, (f column).stored = column.stored) : Retains ordered m (m.modifyColumn c f) where
  nrColumns := Array.size_modify.ge
  nrRows := Nat.le_refl _
  column _ := column_modifyColumn_congr Column.stored m c h _
  row {_ row} _ hrow := ⟨row, hrow, rfl, fun _ => rfl⟩

theorem Retains.modifyRow (m : ConstraintMatrix) (r : RowRef) {f : Row → Row}
    (hstored : ∀ row, m.row? r = some row → (f row).stored = row.stored)
    (hdelayed : ∀ row, m.row? r = some row → r ∉ ordered → (f row).delayed = row.delayed) :
    Retains ordered m (m.modifyRow r f) where
  nrColumns := Nat.le_refl _
  nrRows := Array.size_modify.ge
  column _ := rfl
  row {s row'} _ hrow' := by
    rw [row?_modifyRow] at hrow'
    split at hrow'
    · next heq =>
      subst heq
      obtain ⟨row, hrow, rfl⟩ := Option.map_eq_some_iff.mp hrow'
      exact ⟨row, hrow, hstored row hrow, hdelayed row hrow⟩
    · exact ⟨row', hrow', rfl, fun _ => rfl⟩

/-- Lines retain all that is not forgotten. -/
theorem SameBut.retains {f : Forgetting} (h : SameBut f m m')
    (hcolumn : ∀ column, (f.column column).stored = column.stored)
    (hstored : ∀ row, (f.row row).stored = row.stored)
    (hdelayed : ∀ row, (f.row row).delayed = row.delayed) : Retains ordered m m' where
  nrColumns := h.size_columns.ge
  nrRows := h.size_rows.ge
  column _ := Forgetting.column_congr Column.stored (h.column_eq _) hcolumn
  row {_ row'} _ hrow' := by
    obtain ⟨row, hrow, hsame⟩ := Option.map_eq_some_iff.mp ((h.row?_eq _).symm.trans
      (congrArg (Option.map f.row) hrow'))
    exact ⟨row, hrow, (Forgetting.row_congr Row.stored hsame hstored).symm,
      fun _ => (Forgetting.row_congr Row.delayed hsame hdelayed).symm⟩

/-- Other parts of the matrix do not matter. -/
theorem retains_of_lines (hcolumns : m'.columns = m.columns) (hrows : m'.rows = m.rows) :
    Retains ordered m m' :=
  (sameBut_of_lines (f := .results) hcolumns hrows).retains (fun _ => rfl) (fun _ => rfl) fun _ => rfl

theorem blindToEntries_retains : BlindToEntries (Retains ordered) where
  column m c f hf := .modifyColumn m c fun column => by rw [hf]
  row m r f hf := .modifyRow m r (fun row _ => by rw [hf]) fun row _ _ => by rw [hf]

/-- A freed row has nothing left. -/
theorem retains_withoutRow (m : ConstraintMatrix) (r : RowRef) :
    Retains ordered m { m with rows := m.rows.setIfInBounds r.index none } := by
  refine ⟨Nat.le_refl _, Array.size_setIfInBounds.ge, fun _ => rfl, fun {s row'} _ h => ?_⟩
  rw [row?, Array.getElem?_setIfInBounds] at h
  split at h
  · split at h <;> cases h
  · exact ⟨row', h, rfl, fun _ => rfl⟩

/-! ## Edits -/

theorem retains_announceChange (c : ColumnRef) (r : RowRef) :
    Along (Retains ordered) (announceChange c r) := by
  have hrow {f : Row → Row} (hstored : ∀ row, (f row).stored = row.stored)
      (hdelayed : ∀ row, (f row).delayed = row.delayed) :
      Along (Retains ordered) (updateRow r f) := along_updateRow_of_modifyRow fun m =>
    .modifyRow m r (fun row _ => hstored row) fun row _ _ => hdelayed row
  have hother {f : ConstraintMatrix → ConstraintMatrix}
      (h : ∀ m, (f m).columns = m.columns ∧ (f m).rows = m.rows) :
      Along (Retains ordered) (modify f : MatrixM PUnit) :=
    .modify fun m => retains_of_lines (h m).1 (h m).2
  refine .bind (hrow (fun _ => rfl) fun _ => rfl) fun _ => ?_
  refine .get fun m => .bind (along_getRow r) fun row => ?_
  split
  · split
    · refine .bind (hrow (fun _ => rfl) fun _ => rfl) fun _ => ?_
      exact .bind (hother fun _ => ⟨rfl, rfl⟩) fun _ => hother fun _ => ⟨rfl, rfl⟩
    · refine .bind (.modify fun m => .modifyColumn m c fun _ => rfl) fun _ => ?_
      exact .bind (hother fun _ => ⟨rfl, rfl⟩) fun _ => hother fun _ => ⟨rfl, rfl⟩
  · exact hother fun _ => ⟨rfl, rfl⟩

theorem blindToEdits_retains : BlindToEdits (Retains ordered) where
  toBlindToEntries := blindToEntries_retains
  noteIntegrality c r _ := by
    refine .bind (along_getColumn c) fun _ => along_updateRow_of_modifyRow fun m => ?_
    exact .modifyRow m r (fun _ _ => rfl) fun _ _ _ => rfl
  announceChange := retains_announceChange

/-! ## Order -/

theorem retains_delayOrder (hr : r ∈ ordered) : Along (Retains ordered) (delayOrder r) := by
  refine .bind (along_getRow r) fun _ => .ite .throw_bind ?_
  refine along_updateRow_of_modifyRow fun m => ?_
  exact .modifyRow m r (fun _ _ => rfl) fun _ _ hnot => (hnot hr).elim

theorem retains_forceOrder (hr : r ∈ ordered) : Along (Retains ordered) (forceOrder r) := by
  refine .bind (along_getRow r) fun _ => .ite (fun m => ?_) .pure
  rw [mergeRow, Ends.bind_iff, ends_getRow_iff]
  refine ⟨fun row hrow => ?_, fun _ => refl m⟩
  rw [Ends.ite_iff]
  refine ⟨fun _ => refl m, fun _ => ?_⟩
  rw [Ends.bind_iff, Ends.get_iff, ends_updateRow hrow]
  refine .modifyRow m r (fun row' hrow' => ?_) fun _ _ hnot => (hnot hr).elim
  obtain rfl := Option.some.inj (hrow'.symm.trans hrow)
  rfl

end ConstraintMatrix

end CertifiedLp
