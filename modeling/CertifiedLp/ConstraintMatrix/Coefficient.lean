import CertifiedLp.ConstraintMatrix.Link

/-!
# Coefficients

Reading and changing single coefficients. A coefficient is searched in the list of its column and
then in that of its row, in the parts where it can be. A part is sorted right before it is
searched.

A row may delay its order: then coefficients are appended to it without a search, also several for
the same column, until the row is merged. Its coefficients cannot be read in the meantime.
-/

namespace CertifiedLp

namespace ConstraintMatrix

/-! ## Search -/

/-- The parts of a list in which a partner can be. A linked entry for an active partner is in the
active part, and every other entry is in the rest. -/
def candidates (partnerActive : Bool) (nrUnlinked : Nat) : List Part :=
  (if partnerActive then [.active] else []) ++
    (if !partnerActive || 0 < nrUnlinked then [.rest] else [])

/-- The first result that a search finds. -/
def firstFound {α β : Type} (search : α → MatrixM (Option β)) : List α → MatrixM (Option β)
  | [] => pure none
  | x :: xs => do
    match ← search x with
    | some y => pure (some y)
    | none => firstFound search xs

/-- The position of the entry for a row in the list of a column. -/
def findInColumn (c : ColumnRef) (r : RowRef) : MatrixM (Option Nat) := do
  let rowActive := (← getRow r).isActive
  let nrUnlinked := (← getColumn c).entries.nrUnlinked
  firstFound (fun part => do
    rearrangeColumn c (·.sort part)
    return (← getColumn c).entries.find? part r) (candidates rowActive nrUnlinked)

/-- The position of the entry for a column in the list of a row. A row that delays its order is
searched only as far as it happens to be in order. -/
def findInRow (r : RowRef) (c : ColumnRef) : MatrixM (Option Nat) := do
  let columnActive := (← getColumn c).isActive
  let row ← getRow r
  firstFound (fun part => do
    if row.delayed && !(← getRow r).entries.isSorted part then return none
    rearrangeRow r (·.sort part)
    return (← getRow r).entries.find? part c) (candidates columnActive row.entries.nrUnlinked)

/-- Where a coefficient is, in its column and in its row. -/
def locate (c : ColumnRef) (r : RowRef) : MatrixM (Option Nat × Option Nat) := do
  match ← findInColumn c r with
  | some position => return (some position, (← getColumn c).entries.link? position)
  | none => return (none, ← findInRow r c)

/-! ## Conditions -/

/-- A locked row does not change. -/
def checkUnlocked (r : RowRef) : MatrixM Unit := do
  if (← getRow r).isLocked then throw (.misuse (.rowLocked r))

/-- The coefficients of a row that delays its order cannot be found. -/
def checkOrdered (r : RowRef) : MatrixM Unit := do
  if (← getRow r).delayed then throw (.misuse (.rowUnordered r))

/-- A row stays integral when an integer coefficient of an integral column is stored in it. -/
def noteIntegrality (c : ColumnRef) (r : RowRef) (value : Extended) : MatrixM Unit := do
  let column ← getColumn c
  updateRow r fun row =>
    { row with integral := row.integral && column.integral && value.isIntegral }

/-! ## Reading and changing -/

/-- A coefficient, which is zero if it is not stored. -/
def coefficient (c : ColumnRef) (r : RowRef) : MatrixM Extended := do
  checkOrdered r
  match ← findInColumn c r with
  | some position => return (← getColumn c).entries.valueAt position
  | none =>
    match ← findInRow r c with
    | some position => return (← getRow r).entries.valueAt position
    | none => return 0

/-- Store a coefficient that does not exist, in its column. -/
def addInColumn (c : ColumnRef) (r : RowRef) (value : Extended) : MatrixM Unit := do
  checkUnlocked r
  if value.isZero then return
  checkOrdered r
  if (← findInColumn c r).isSome then throw (.misuse (.columnHasCoefficient c r))
  if (← findInRow r c).isSome then throw (.misuse (.columnHasCoefficient c r))
  insertInColumn c r value
  noteIntegrality c r value
  announceChange c r

/-- Store a coefficient that does not exist, in its row. A row that delays its order may have the
coefficient already, but the column may not. -/
def addInRow (r : RowRef) (c : ColumnRef) (value : Extended) : MatrixM Unit := do
  checkUnlocked r
  if value.isZero then return
  let delayed := (← getRow r).delayed
  if (← findInColumn c r).isSome then throw (.misuse (.rowHasCoefficient r c))
  if !delayed then
    if (← findInRow r c).isSome then throw (.misuse (.rowHasCoefficient r c))
  insertInRow r c value
  noteIntegrality c r value
  announceChange c r

/-- Set a coefficient. Zero removes it, and one that does not exist is stored. -/
def change (c : ColumnRef) (r : RowRef) (value : Extended) : MatrixM Unit := do
  checkUnlocked r
  checkOrdered r
  if value.isInfinite then throw (.misuse (.coefficientInfinite c r))
  let (columnPosition, rowPosition) ← locate c r
  if value.isZero then
    if columnPosition.isNone && rowPosition.isNone then return
    removeBoth c r columnPosition rowPosition
  else
    if columnPosition.isNone && rowPosition.isNone then insertInColumn c r value
    else
      if let some position := columnPosition then
        updateColumn c fun column =>
          { column with entries := column.entries.setValue position value }
      if let some position := rowPosition then
        updateRow r fun row => { row with entries := row.entries.setValue position value }
    noteIntegrality c r value
  announceChange c r

/-- Add to a coefficient, which is stored if it does not exist. -/
def increase (r : RowRef) (c : ColumnRef) (increment : Extended) : MatrixM Unit := do
  checkUnlocked r
  if increment.isZero then return
  if (← getRow r).delayed then addInRow r c increment
  else
    let current ← coefficient c r
    change c r (current + increment)

/-- Remove a coefficient, which has to exist. -/
def delete (c : ColumnRef) (r : RowRef) : MatrixM Unit := do
  checkUnlocked r
  let (columnPosition, rowPosition) ← locate c r
  if columnPosition.isNone && rowPosition.isNone then throw (.misuse (.coefficientMissing c r))
  removeBoth c r columnPosition rowPosition
  announceChange c r

/-! ## Delayed order -/

/-- Let a row delay its order. It must not be active, and none of its entries linked. -/
def delayOrder (r : RowRef) : MatrixM Unit := do
  let row ← getRow r
  if row.isActive || !row.isUnlinked then throw (.misuse (.linkedRowDelayed r))
  updateRow r ({ · with delayed := true })

/-- Whether the activity of a row is an integer for all integer values of the columns, from its
entries. -/
def isIntegralRow (m : ConstraintMatrix) (row : Row) : Bool :=
  row.spec.constant.isIntegral &&
    row.entries.entries.all fun e => (m.column e.partner).integral && e.value.isIntegral

/-- Sort the entries of a row and add up those for the same column. -/
def mergeRow (r : RowRef) : MatrixM Unit := do
  let row ← getRow r
  if !row.isUnlinked then throw (.misuse (.linkedRowMerged r))
  let row := { row.expireActivity with entries := row.entries.merge, delayed := false }
  let integral := isIntegralRow (← get) row
  updateRow r fun _ => { row with integral }

/-- Merge a row if it delays its order. -/
def forceOrder (r : RowRef) : MatrixM Unit := do
  if (← getRow r).delayed then mergeRow r

end ConstraintMatrix

end CertifiedLp
