import Mathlib
import CertifiedLp.Proofs.Relaxation.Tracking
import CertifiedLp.Proofs.Simplex.Contents

/-!
# What the simplex solver was told

The simplex solver holds what it was told: the objective and the bounds that were sent for a column,
the sides that were sent for a row, and the coefficients that both of their lines know, where
neither of the lines is marked. Edits do not call the solver. They keep what was sent, and they mark a
line of every coefficient that does not agree with the solver any more.
-/

namespace CertifiedLp

namespace ConstraintMatrix

open Simplex (Restricts SameContents finiteEnd? toBounds)

variable {m m' : ConstraintMatrix} {s t : Simplex} {c : ColumnRef} {r : RowRef} {row : Row}
variable {i j n k : Nat}

/-- The solver holds what it was told of its columns and rows. -/
structure Conveyed (m : ConstraintMatrix) (s : Simplex) : Prop where
  rectangular : s.Rectangular
  nrColumns : s.nrColumns = m.solverColumns.size
  nrRows : s.nrRows = m.solverRows.size
  cost : ∀ {i : Nat} {c}, m.solverColumns[i]? = some c →
    s.cost? i = finiteEnd? (m.column c).sent.objective
  bounds : ∀ {i : Nat} {c}, m.solverColumns[i]? = some c → s.bounds? i =
    some (toBounds (m.column c).sent.bounds.lower (m.column c).sent.bounds.upper)
  sides : ∀ {j : Nat} {r row}, m.solverRows[j]? = some r → m.row? r = some row → s.sides? j =
    some (toBounds (row.sent.solverSide .lower) (row.sent.solverSide .upper))
  entry : ∀ {i j : Nat} {c r row}, m.solverColumns[i]? = some c → m.solverRows[j]? = some r →
    m.row? r = some row → (m.column c).coefficientChanged = false →
    row.coefficientChanged = false → s.cell? j i = some (m.linked c r)

/-- Of the lines in the solver, the same was sent, and no mark was removed. A coefficient that changed
belongs to a line that is marked. -/
structure Retells (m m' : ConstraintMatrix) : Prop where
  column : ∀ {c}, c ∈ m'.solverColumns → (m'.column c).sent = (m.column c).sent ∧
    ((m'.column c).coefficientChanged = false → (m.column c).coefficientChanged = false)
  row : ∀ {r row'}, r ∈ m'.solverRows → m'.row? r = some row' → ∃ row, m.row? r = some row ∧
    row'.sent = row.sent ∧ (row'.coefficientChanged = false → row.coefficientChanged = false)
  linked : ∀ {c r row'}, c ∈ m'.solverColumns → r ∈ m'.solverRows → m'.row? r = some row' →
    (m'.column c).coefficientChanged = false → row'.coefficientChanged = false →
    m'.linked c r = m.linked c r

theorem getElem?_of_prefix {κ : Type} {xs ys : Array κ} {x : κ} (h : ys = xs.extract 0 n)
    (hx : ys[i]? = some x) : i < n ∧ xs[i]? = some x := by
  subst h
  have hi : i < n := by
    have hbound := (Array.getElem?_eq_some_iff.mp hx).1
    rw [Array.size_extract] at hbound
    omega
  exact ⟨hi, by rwa [Simplex.getElem?_extract_zero hi] at hx⟩

/-- The first lines of the solver are still what they were told to be. -/
theorem Conveyed.restrict (h : m.Conveyed s) (hm : Retells m m') (hs : Restricts s t n k)
    (hn : n ≤ m.solverColumns.size) (hk : k ≤ m.solverRows.size)
    (hcolumns : m'.solverColumns = m.solverColumns.extract 0 n)
    (hrows : m'.solverRows = m.solverRows.extract 0 k) : m'.Conveyed t where
  rectangular := hs.rectangular
  nrColumns := by
    rw [hs.nrColumns, hcolumns, Array.size_extract]
    omega
  nrRows := by
    rw [hs.nrRows, hrows, Array.size_extract]
    omega
  cost hi := by
    obtain ⟨hlt, hold⟩ := getElem?_of_prefix hcolumns hi
    rw [hs.cost _ hlt, h.cost hold, (hm.column (Array.mem_of_getElem? hi)).1]
  bounds hi := by
    obtain ⟨hlt, hold⟩ := getElem?_of_prefix hcolumns hi
    rw [hs.bounds _ hlt, h.bounds hold, (hm.column (Array.mem_of_getElem? hi)).1]
  sides hj hrow' := by
    obtain ⟨hlt, hold⟩ := getElem?_of_prefix hrows hj
    obtain ⟨row, hrow, hsent, -⟩ := hm.row (Array.mem_of_getElem? hj) hrow'
    rw [hs.sides _ hlt, h.sides hold hrow, hsent]
  entry hi hj hrow' hcolumnMark hrowMark := by
    obtain ⟨hi', hcolumn⟩ := getElem?_of_prefix hcolumns hi
    obtain ⟨hj', hrowHeld⟩ := getElem?_of_prefix hrows hj
    have hc := Array.mem_of_getElem? hi
    have hr := Array.mem_of_getElem? hj
    obtain ⟨row, hrow, -, hmark⟩ := hm.row hr hrow'
    rw [hs.entry _ hj' _ hi', h.entry hcolumn hrowHeld hrow ((hm.column hc).2 hcolumnMark)
      (hmark hrowMark), hm.linked hc hr hrow' hcolumnMark hrowMark]

/-- As long as the lists of the solver stay. -/
theorem Conveyed.retell (h : m.Conveyed s) (hm : Retells m m') (hs : SameContents s t)
    (hcolumns : m'.solverColumns = m.solverColumns) (hrows : m'.solverRows = m.solverRows) :
    m'.Conveyed t := by
  refine h.restrict hm (h.nrRows ▸ h.nrColumns ▸ hs.restricts h.rectangular) (Nat.le_refl _)
    (Nat.le_refl _) ?_ ?_
  · rw [Array.extract_size, hcolumns]
  · rw [Array.extract_size, hrows]

theorem Announced.marked (h : m.Announced c r) (hrow : m.row? r = some row)
    (hc : (m.column c).solverPosition.isSome = true) (hr : row.solverPosition.isSome = true)
    (hcolumn : (m.column c).coefficientChanged = false) : row.coefficientChanged = true := by
  rcases h row hrow hc hr with hmark | hmark
  · exact nomatch hcolumn.symm.trans hmark
  · exact hmark

end ConstraintMatrix

end CertifiedLp
