import CertifiedLp.ConstraintMatrix.Basic

/-!
# Linking

Storing a coefficient in the lists of its column and its row, and removing it from them, such that
links and parts stay right: an entry is in the active part of its list exactly when it is linked to
a line in the active linear program.
-/

namespace CertifiedLp

namespace ConstraintMatrix

/-- Zero is not stored, and an infinite coefficient has no meaning. -/
def checkStorable (value : Extended) : MatrixM Unit :=
  if value.isZero || value.isInfinite then throw (.misuse (.notStorable value)) else pure ()

/-! ## Storing -/

/-- Store the counterpart of an unlinked entry of a row in a column. Return the position of the new
entry. -/
def mirrorInColumn (c : ColumnRef) (r : RowRef) (value : Extended) (rowPosition : Nat) :
    MatrixM Nat := do
  checkStorable value
  let rowActive := (← getRow r).isActive
  let column ← getColumn c
  let position := column.entries.size
  updateColumn c fun column =>
    { column with entries := column.entries.push ⟨r, value, rowPosition⟩ }
  setRowLink r rowPosition (some position)
  if rowActive then rearrangeColumn c (·.activate position)
  if column.isActive then rearrangeRow r (·.activate rowPosition)
  if rowActive then return (← getColumn c).entries.nrActive - 1 else return position

/-- Store the counterpart of an unlinked entry of a column in a row. Return the position of the new
entry. -/
def mirrorInRow (r : RowRef) (c : ColumnRef) (value : Extended) (columnPosition : Nat) :
    MatrixM Nat := do
  checkStorable value
  let columnActive := (← getColumn c).isActive
  let row ← getRow r
  let position := row.entries.size
  updateRow r fun row => { row with entries := row.entries.push ⟨c, value, columnPosition⟩ }
  setColumnLink c columnPosition (some position)
  if columnActive then rearrangeRow r (·.activate position)
  if row.isActive then rearrangeColumn c (·.activate columnPosition)
  if columnActive then return (← getRow r).entries.nrActive - 1 else return position

/-- Store a coefficient in a column, and also in the row if the column is active. -/
def insertInColumn (c : ColumnRef) (r : RowRef) (value : Extended) : MatrixM Unit := do
  checkStorable value
  let _ ← getRow r
  let column ← getColumn c
  updateColumn c fun column => { column with entries := column.entries.push ⟨r, value, none⟩ }
  if column.isActive then
    let rowPosition ← mirrorInRow r c value column.entries.size
    if ((← getRow r).entries.link? rowPosition).isNone then
      throw (.breakdown (.columnEntryNotLinked c r))

/-- Store a coefficient in a row, and also in the column if the row is active. -/
def insertInRow (r : RowRef) (c : ColumnRef) (value : Extended) : MatrixM Unit := do
  checkStorable value
  let row ← getRow r
  updateRow r fun row => { row with entries := row.entries.push ⟨c, value, none⟩ }
  if row.isActive then
    let columnPosition ← mirrorInColumn c r value row.entries.size
    if ((← getColumn c).entries.link? columnPosition).isNone then
      throw (.breakdown (.rowEntryNotLinked r c))

/-! ## Removing -/

/-- Remove an entry of a column, but not its counterpart. Return the position of that. -/
def removeFromColumn (c : ColumnRef) (position : Nat) : MatrixM (Option Nat) := do
  let link := (← getColumn c).entries.link? position
  rearrangeColumn c (·.remove position)
  return link

/-- Remove an entry of a row, but not its counterpart. Return the position of that. -/
def removeFromRow (r : RowRef) (position : Nat) : MatrixM (Option Nat) := do
  let link := (← getRow r).entries.link? position
  rearrangeRow r (·.remove position)
  return link

/-- Remove a coefficient from both lists, given its positions in the lists that have it. The
position in the row is known from the entry of the column, if there is one. -/
def removeBoth (c : ColumnRef) (r : RowRef) (columnPosition rowPosition : Option Nat) :
    MatrixM Unit := do
  let rowPosition ← match columnPosition with
    | some position => removeFromColumn c position
    | none => pure rowPosition
  match rowPosition with
  | some position => let _ ← removeFromRow r position
  | none => pure ()

/-! ## Whole lines -/

/-- Link all entries of a column. Linking may move an entry to the front; the one that takes its
place is linked already. -/
def linkColumn (c : ColumnRef) : MatrixM Unit := do
  let entries := (← getColumn c).entries
  if entries.nrUnlinked ≠ 0 then
    for position in List.range entries.size do
      match (← getColumn c).entries.entry? position with
      | some ⟨r, value, none⟩ => let _ ← mirrorInRow r c value position
      | _ => pure ()

/-- Link all entries of a row. -/
def linkRow (r : RowRef) : MatrixM Unit := do
  let entries := (← getRow r).entries
  if entries.nrUnlinked ≠ 0 then
    for position in List.range entries.size do
      match (← getRow r).entries.entry? position with
      | some ⟨c, value, none⟩ => let _ ← mirrorInColumn c r value position
      | _ => pure ()

/-- Remove the counterparts of all entries of a row from their columns. -/
def unlinkRow (r : RowRef) : MatrixM Unit := do
  for position in List.range (← getRow r).entries.size do
    match (← getRow r).entries.entry? position with
    | some ⟨c, _, some columnPosition⟩ =>
      let _ ← removeFromColumn c columnPosition
      setRowLink r position none
    | _ => pure ()
  updateRow r fun row => { row with entries := row.entries.setNrActive 0 }

/-- Remove the unlinked entries for a row from the list of a column, from a position on. A removed
entry is replaced by another one that has to be looked at as well. -/
def dropUnlinked (c : ColumnRef) (r : RowRef) (position : Nat) : (remaining : Nat) → MatrixM Unit
  | 0 => pure ()
  | remaining + 1 => do
    match (← getColumn c).entries.entry? position with
    | some ⟨partner, _, none⟩ =>
      if partner = r then
        rearrangeColumn c (·.remove position)
        dropUnlinked c r position remaining
      else dropUnlinked c r (position + 1) remaining
    | some _ => dropUnlinked c r (position + 1) remaining
    | none => pure ()

/-- Free a row that is not active, and remove all of its coefficients. -/
def freeRow (r : RowRef) : MatrixM Unit := do
  unlinkRow r
  for c in (← get).columnRefs do
    let entries := (← getColumn c).entries
    if 0 < entries.nrUnlinked then dropUnlinked c r 0 entries.size
  modify fun m => { m with rows := m.rows.setIfInBounds r.index none }

end ConstraintMatrix

end CertifiedLp
