import CertifiedLp.Error
import CertifiedLp.Line

/-!
# Constraint matrices

All columns and rows, which refer to each other by their incidence lists. A nonzero coefficient is
in at least one of the lists of its column and its row, the one it was added to. When it is in
both, the two entries are linked: each of them knows the position of the other one.

Linking is lazy. A coefficient between a column and a row that are both outside of the active
linear program is stored on one side only, until one of the two lines is about to be sent to the
solver. Entries that are linked to a line in the active linear program come first in every list,
so that the part of the matrix that the solver sees can be read off without a search.

The matrix also knows which columns and rows the solver holds, and up to which position these are
the active ones.
-/

namespace CertifiedLp

/-- All columns and rows, and what the solver holds of them. -/
structure ConstraintMatrix where
  /-- The columns, by number. -/
  columns : Array Column
  /-- The rows, by number, without those that were freed. -/
  rows : Array (Option Row)
  /-- The columns in the solver, by position. -/
  solverColumns : Array ColumnRef
  /-- The rows in the solver, by position. -/
  solverRows : Array RowRef
  /-- Below this position, the active columns are those in the solver. -/
  firstChangedColumn : Nat
  /-- Below this position, the active rows are those in the solver. -/
  firstChangedRow : Nat
  /-- Whether the solver knows of all changes. -/
  synced : Bool
  deriving DecidableEq

/-- Operations on a matrix. A failing operation keeps the changes before its failure. -/
abbrev MatrixM := ExceptT LpError (StateM ConstraintMatrix)

namespace ConstraintMatrix

/-- A matrix without columns and rows. -/
def empty : ConstraintMatrix := ⟨#[], #[], #[], #[], 0, 0, true⟩

instance : Inhabited ConstraintMatrix := ⟨empty⟩

/-! ## Access -/

/-- A column. Columns are never freed. -/
def column (m : ConstraintMatrix) (c : ColumnRef) : Column := m.columns.getD c.index default

/-- A row, unless it was freed. -/
def row? (m : ConstraintMatrix) (r : RowRef) : Option Row := m.rows[r.index]?.join

/-- All columns. -/
def columnRefs (m : ConstraintMatrix) : List ColumnRef :=
  (List.range m.columns.size).map ColumnRef.mk

/-- All rows that were not freed. -/
def rowRefs (m : ConstraintMatrix) : List RowRef :=
  ((List.range m.rows.size).map RowRef.mk).filter fun r => (m.row? r).isSome

/-- Change a column. -/
def modifyColumn (m : ConstraintMatrix) (c : ColumnRef) (f : Column → Column) : ConstraintMatrix :=
  { m with columns := m.columns.modify c.index f }

/-- Change a row. -/
def modifyRow (m : ConstraintMatrix) (r : RowRef) (f : Row → Row) : ConstraintMatrix :=
  { m with rows := m.rows.modify r.index fun row => row.map f }

@[simp] theorem row?_modifyColumn (m : ConstraintMatrix) (c : ColumnRef) (f : Column → Column)
    (r : RowRef) : (m.modifyColumn c f).row? r = m.row? r := rfl

@[simp] theorem column_modifyRow (m : ConstraintMatrix) (r : RowRef) (f : Row → Row)
    (c : ColumnRef) : (m.modifyRow r f).column c = m.column c := rfl

theorem column_modifyColumn_self {m : ConstraintMatrix} {c : ColumnRef}
    (h : c.index < m.columns.size) (f : Column → Column) :
    (m.modifyColumn c f).column c = f (m.column c) := by
  simp [modifyColumn, column, Array.getElem_modify, h]

theorem column_modifyColumn_of_ne {m : ConstraintMatrix} {c d : ColumnRef} (h : c ≠ d)
    (f : Column → Column) : (m.modifyColumn c f).column d = m.column d := by
  have hindex : c.index ≠ d.index := fun heq => h (Reference.index_injective heq)
  simp [modifyColumn, column, Array.getElem?_modify, hindex]

theorem row?_modifyRow (m : ConstraintMatrix) (r s : RowRef) (f : Row → Row) :
    (m.modifyRow r f).row? s = if r = s then (m.row? s).map f else m.row? s := by
  by_cases h : r = s
  · subst h
    simp only [modifyRow, row?, Array.getElem?_modify]
    rcases m.rows[r.index]? with _ | _ | row <;> simp
  · have hindex : r.index ≠ s.index := fun heq => h (Reference.index_injective heq)
    simp [modifyRow, row?, Array.getElem?_modify, hindex, h]

/-- Create a column. -/
def pushColumn (m : ConstraintMatrix) (column : Column) : ConstraintMatrix × ColumnRef :=
  ({ m with columns := m.columns.push column }, ⟨m.columns.size⟩)

/-- Create a row. -/
def pushRow (m : ConstraintMatrix) (row : Row) : ConstraintMatrix × RowRef :=
  ({ m with rows := m.rows.push (some row) }, ⟨m.rows.size⟩)

/-- A row that should exist, or an error if there is none. -/
def existingRow (m : ConstraintMatrix) (r : RowRef) : Except LpError Row :=
  match m.row? r with
  | some row => .ok row
  | none => .error (.misuse (.rowMissing r))

/-- Look up a column. -/
def getColumn (c : ColumnRef) : MatrixM Column := return (← get).column c

/-- Look up a row. -/
def getRow (r : RowRef) : MatrixM Row := do existingRow (← get) r

/-- Change a column. -/
def updateColumn (c : ColumnRef) (f : Column → Column) : MatrixM Unit :=
  modify (·.modifyColumn c f)

/-- Change a row, which has to exist. -/
def updateRow (r : RowRef) (f : Row → Row) : MatrixM Unit := do
  let _ ← getRow r
  modify (·.modifyRow r f)

/-! ## Moving entries -/

/-- Tell the rows that entries of columns moved. -/
def tellRows (moves : List (Move RowRef)) : MatrixM Unit :=
  for move in moves do
    updateRow move.partner fun row =>
      { row with entries := row.entries.relink move.counterpart move.position }

/-- Tell the columns that entries of rows moved. -/
def tellColumns (moves : List (Move ColumnRef)) : MatrixM Unit :=
  for move in moves do
    updateColumn move.partner fun column =>
      { column with entries := column.entries.relink move.counterpart move.position }

/-- Rearrange the entries of a column. -/
def rearrangeColumn (c : ColumnRef)
    (f : Incidence RowRef → Incidence RowRef × List (Move RowRef)) : MatrixM Unit := do
  let (entries, moves) := f (← getColumn c).entries
  updateColumn c ({ · with entries })
  tellRows moves

/-- Rearrange the entries of a row. -/
def rearrangeRow (r : RowRef)
    (f : Incidence ColumnRef → Incidence ColumnRef × List (Move ColumnRef)) : MatrixM Unit := do
  let (entries, moves) := f (← getRow r).entries
  updateRow r ({ · with entries })
  tellColumns moves

/-- Change the link of an entry of a column. -/
def setColumnLink (c : ColumnRef) (position : Nat) (link : Option Nat) : MatrixM Unit :=
  updateColumn c fun column => { column with entries := column.entries.setLink position link }

/-- Change the link of an entry of a row. -/
def setRowLink (r : RowRef) (position : Nat) (link : Option Nat) : MatrixM Unit :=
  updateRow r fun row => { row with entries := row.entries.setLink position link }

/-- Move an entry to the active part of its list, or out of it. -/
def shift {κ : Type} [Reference κ] (entering : Bool) (position : Nat) (l : Incidence κ) :
    Incidence κ × List (Move κ) :=
  if entering then l.activate position else l.deactivate position

/-- Set the position of a column in the active linear program. When the column enters or leaves
it, the entries that rows have for the column change parts. -/
def setColumnActivePosition (c : ColumnRef) (activePosition : Option Nat) : MatrixM Unit := do
  let column ← getColumn c
  updateColumn c ({ · with activePosition })
  let entering := activePosition.isSome
  if entering != column.isActive then
    for position in List.range column.entries.size do
      match (← getColumn c).entries.entry? position with
      | some ⟨r, _, some link⟩ => rearrangeRow r (shift entering link)
      | _ => pure ()

/-- Set the position of a row in the active linear program. When the row enters or leaves it, the
entries that columns have for the row change parts. -/
def setRowActivePosition (r : RowRef) (activePosition : Option Nat) : MatrixM Unit := do
  let row ← getRow r
  updateRow r ({ · with activePosition })
  let entering := activePosition.isSome
  if entering != row.isActive then
    for position in List.range row.entries.size do
      match (← getRow r).entries.entry? position with
      | some ⟨c, _, some link⟩ => rearrangeColumn c (shift entering link)
      | _ => pure ()

/-- A coefficient changed. If the solver has both lines, one of them has to be sent again: the one
with fewer lines behind it in the solver, which have to be sent again as well. -/
def announceChange (c : ColumnRef) (r : RowRef) : MatrixM Unit := do
  updateRow r Row.expireActivity
  let m ← get
  let row ← getRow r
  match (m.column c).solverPosition, row.solverPosition with
  | some columnPosition, some rowPosition =>
    if m.solverRows.size - rowPosition ≤ m.solverColumns.size - columnPosition then
      updateRow r ({ · with coefficientChanged := true })
      modify fun m => { m with firstChangedRow := min m.firstChangedRow rowPosition }
    else
      updateColumn c ({ · with coefficientChanged := true })
      modify fun m => { m with firstChangedColumn := min m.firstChangedColumn columnPosition }
  | _, _ => pure ()
  modify ({ · with synced := false })

end ConstraintMatrix

end CertifiedLp
