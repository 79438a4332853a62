import Mathlib
import CertifiedLp.ConstraintMatrix.Basic

/-!
# What an operation leaves alone

Many operations change one aspect of columns and rows only. A way of forgetting drops such an
aspect, so that an equation between two matrices without it states that nothing else changed.
-/

namespace CertifiedLp

/-- A way to forget something about columns and rows. -/
structure Forgetting where
  /-- The column without what is forgotten. -/
  column : Column → Column
  /-- The row without what is forgotten. -/
  row : Row → Row
  column_default : column default = default

namespace Forgetting

/-- Forget the values of solutions. -/
def values : Forgetting where
  column c := { c with values := ⟨0, 0, .zero⟩, farkas := 0, stored := none }
  row r := { r with values := ⟨0, 0, none, .basic⟩, farkas := 0, stored := none }
  column_default := rfl

/-- Forget the values of the last solve, but not those that were put aside. -/
def results : Forgetting where
  column c := { c with values := ⟨0, 0, .zero⟩, farkas := 0 }
  row r := { r with values := ⟨0, 0, none, .basic⟩, farkas := 0 }
  column_default := rfl

/-- Forget the coefficients. -/
def entries : Forgetting where
  column c := { c with entries := .empty }
  row r := { r with entries := .empty }
  column_default := rfl

/-- Forget the coefficients, what the solver was told, where it has the lines, and whether activities
are up to date. -/
def contact : Forgetting where
  column c := { c with
    entries := .empty, sent := default, solverPosition := none, coefficientChanged := false }
  row r := { r.expireActivity with
    entries := .empty, sent := default, solverPosition := none, coefficientChanged := false }
  column_default := rfl

/-- Forget what a line says, and what is known of it that depends on that. -/
def statement : Forgetting where
  column c := { c with spec := default }
  row r := { r.expireActivity with spec := default, integral := false }
  column_default := rfl

/-- Forget everything but the coefficients, whether a line is active, and whether a row delays its
order. -/
def details : Forgetting where
  column c := { Column.create default false default with
    entries := c.entries, activePosition := c.activePosition.map fun _ => 0 }
  row r := { Row.create "" default with
    entries := r.entries, delayed := r.delayed, activePosition := r.activePosition.map fun _ => 0 }
  column_default := rfl

/-- Forget everything but where a line is, and how many uses a row has. -/
def allButPlaces : Forgetting where
  column c := { Column.create default false default with
    activePosition := c.activePosition, solverPosition := c.solverPosition }
  row r := { Row.create "" default with
    activePosition := r.activePosition, solverPosition := r.solverPosition, nrUses := r.nrUses }
  column_default := rfl

variable {f : Forgetting} {β : Type}

/-- What does not depend on the forgotten aspect is the same for columns that differ in it only. -/
theorem column_congr {c c' : Column} (g : Column → β) (h : f.column c' = f.column c)
    (hg : ∀ c, g (f.column c) = g c) : g c' = g c := by
  rw [← hg c', h, hg c]

theorem row_congr {r r' : Row} (g : Row → β) (h : f.row r' = f.row r)
    (hg : ∀ r, g (f.row r) = g r) : g r' = g r := by
  rw [← hg r', h, hg r]

end Forgetting

namespace ConstraintMatrix

/-- The matrix without what is forgotten. -/
def without (m : ConstraintMatrix) (f : Forgetting) : ConstraintMatrix :=
  { m with columns := m.columns.map f.column, rows := m.rows.map (·.map f.row) }

variable {m m' : ConstraintMatrix} {f : Forgetting} {c : ColumnRef} {r : RowRef} {row : Row}

/-- A column that is not like new exists. -/
theorem lt_size_of_column_ne (h : m.column c ≠ default) : c.index < m.columns.size := by
  by_contra hlt
  refine h ?_
  rw [column, Array.getD_eq_getD_getElem?, Array.getElem?_eq_none (by omega), Option.getD_none]

theorem row?_of_size_le (h : m.rows.size ≤ r.index) : m.row? r = none := by
  rw [row?, Array.getElem?_eq_none h]
  rfl

/-- A change of a column leaves alone what does not depend on the change. -/
theorem column_modifyColumn_congr {β : Type} (g : Column → β) (m : ConstraintMatrix) (c : ColumnRef)
    {f : Column → Column} (h : ∀ column, g (f column) = g column) (d : ColumnRef) :
    g ((m.modifyColumn c f).column d) = g (m.column d) := by
  simp only [ConstraintMatrix.column, ConstraintMatrix.modifyColumn, Array.getD_eq_getD_getElem?,
    Array.getElem?_modify]
  split
  · rcases m.columns[d.index]? with _ | column
    · rfl
    · exact h column
  · rfl

@[simp] theorem column_without (m : ConstraintMatrix) (f : Forgetting) (c : ColumnRef) :
    (m.without f).column c = f.column (m.column c) := by
  rw [column, column, without, Array.getD_eq_getD_getElem?, Array.getD_eq_getD_getElem?,
    Array.getElem?_map]
  rcases m.columns[c.index]? with _ | column
  · exact f.column_default.symm
  · rfl

@[simp] theorem row?_without (m : ConstraintMatrix) (f : Forgetting) (r : RowRef) :
    (m.without f).row? r = (m.row? r).map f.row := by
  rw [row?, row?, without, Array.getElem?_map]
  rcases m.rows[r.index]? with _ | _ | row <;> rfl

theorem column_eq_of_without (h : m'.without f = m.without f) (c : ColumnRef) :
    f.column (m'.column c) = f.column (m.column c) := by
  rw [← column_without, h, column_without]

theorem row?_eq_of_without (h : m'.without f = m.without f) (r : RowRef) :
    (m'.row? r).map f.row = (m.row? r).map f.row := by
  rw [← row?_without, h, row?_without]

theorem row_eq_of_without (h : m'.without f = m.without f) (hrow : m.row? r = some row) :
    ∃ row', m'.row? r = some row' ∧ f.row row' = f.row row := by
  have hmap := row?_eq_of_without h r
  rw [hrow, Option.map_some, Option.map_eq_some_iff] at hmap
  exact hmap

theorem size_columns_eq_of_without (h : m'.without f = m.without f) :
    m'.columns.size = m.columns.size := by
  have hsize := congrArg (·.columns.size) h
  simpa [without] using hsize

theorem size_rows_eq_of_without (h : m'.without f = m.without f) :
    m'.rows.size = m.rows.size := by
  have hsize := congrArg (·.rows.size) h
  simpa [without] using hsize

/-- Who forgets more knows no more differences. -/
theorem without_eq_of_without {g : Forgetting} (hcolumn : ∀ c, g.column (f.column c) = g.column c)
    (hrow : ∀ r, g.row (f.row r) = g.row r) (h : m'.without f = m.without f) :
    m'.without g = m.without g := by
  have hmore (m : ConstraintMatrix) : (m.without f).without g = m.without g := by
    have hcolumns : g.column ∘ f.column = g.column := funext hcolumn
    have hrows : Option.map g.row ∘ Option.map f.row = Option.map g.row := by
      rw [Option.map_comp_map]
      exact congrArg Option.map (funext hrow)
    simp only [without, Array.map_map, hcolumns, hrows]
  rw [← hmore m', h, hmore m]

/-- A change of a column is forgotten if it changes nothing else. -/
theorem without_modifyColumn (m : ConstraintMatrix) (c : ColumnRef) {g : Column → Column}
    (h : ∀ column, f.column (g column) = f.column column) :
    (m.modifyColumn c g).without f = m.without f := by
  rw [without, without, modifyColumn]
  congr 1
  apply Array.ext
  · simp
  · intro i hi hi'
    by_cases hic : c.index = i <;> simp [Array.getElem_modify, hic, h]

/-- A change of a row is forgotten if it changes nothing else. -/
theorem without_modifyRow (m : ConstraintMatrix) (r : RowRef) {g : Row → Row}
    (h : ∀ row, f.row (g row) = f.row row) : (m.modifyRow r g).without f = m.without f := by
  rw [without, without, modifyRow]
  congr 1
  apply Array.ext
  · simp
  · intro i hi hi'
    by_cases hir : r.index = i
    · have hg : f.row ∘ g = f.row := funext h
      simp [Array.getElem_modify, hir, hg]
    · simp [Array.getElem_modify, hir]

/-! ## Lines -/

/-- Without what is forgotten, the columns and rows are the same. -/
structure SameBut (f : Forgetting) (m m' : ConstraintMatrix) : Prop where
  columns : (m'.without f).columns = (m.without f).columns
  rows : (m'.without f).rows = (m.without f).rows

instance : IsPreorder ConstraintMatrix (SameBut f) where
  refl _ := ⟨rfl, rfl⟩
  trans _ _ _ h h' := ⟨h'.columns.trans h.columns, h'.rows.trans h.rows⟩

theorem sameBut_of_without (h : m'.without f = m.without f) : SameBut f m m' :=
  ⟨by rw [h], by rw [h]⟩

theorem sameBut_of_lines (hcolumns : m'.columns = m.columns) (hrows : m'.rows = m.rows) :
    SameBut f m m' :=
  ⟨by rw [without, hcolumns, without], by rw [without, hrows, without]⟩

namespace SameBut

theorem size_columns (h : SameBut f m m') : m'.columns.size = m.columns.size := by
  have hsize := congrArg Array.size h.columns
  simpa [without] using hsize

theorem size_rows (h : SameBut f m m') : m'.rows.size = m.rows.size := by
  have hsize := congrArg Array.size h.rows
  simpa [without] using hsize

theorem column_eq (h : SameBut f m m') (c : ColumnRef) :
    f.column (m'.column c) = f.column (m.column c) := by
  rw [← column_without, column, h.columns, ← column_without, column]

theorem row?_eq (h : SameBut f m m') (r : RowRef) :
    (m'.row? r).map f.row = (m.row? r).map f.row := by
  rw [← row?_without, row?, h.rows, ← row?_without, row?]

theorem exists_row (h : SameBut f m m') (hrow : m.row? r = some row) :
    ∃ row', m'.row? r = some row' ∧ f.row row' = f.row row := by
  have hmap := h.row?_eq r
  rw [hrow, Option.map_some, Option.map_eq_some_iff] at hmap
  exact hmap

end SameBut

end ConstraintMatrix

end CertifiedLp
