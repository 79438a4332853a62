import Mathlib
import CertifiedLp.Proofs.Along
import CertifiedLp.Proofs.Forgetting
import CertifiedLp.ConstraintMatrix.Coefficient

/-!
# Relations that do not see entries

The operations on lists of coefficients change the entries of columns and rows, and nothing else. So
they go along every relation that does not see a change of entries, whether the lists fit together or
not, and also if they fail. Edits note besides whether the row stays integral, and announce the change
to the solver: they go along a relation that does not see this either.
-/

namespace CertifiedLp

namespace ConstraintMatrix

/-- A change of the entries of a column or a row does not matter. -/
structure BlindToEntries (R : ConstraintMatrix → ConstraintMatrix → Prop) : Prop where
  column : ∀ m c {f : Column → Column},
    (∀ column, f column = { column with entries := (f column).entries }) → R m (m.modifyColumn c f)
  row : ∀ m r {f : Row → Row},
    (∀ row, f row = { row with entries := (f row).entries }) → R m (m.modifyRow r f)

/-- Nor does what an edit does besides. -/
structure BlindToEdits (R : ConstraintMatrix → ConstraintMatrix → Prop) : Prop
    extends BlindToEntries R where
  noteIntegrality : ∀ c r v, Along R (noteIntegrality c r v)
  announceChange : ∀ c r, Along R (announceChange c r)

variable {R : ConstraintMatrix → ConstraintMatrix → Prop} [IsPreorder ConstraintMatrix R]

theorem along_updateRow_of_modifyRow {r : RowRef} {f : Row → Row}
    (h : ∀ m, R m (m.modifyRow r f)) : Along R (updateRow r f) := fun m =>
  ends_updateRow_iff.mpr ⟨fun _ => h m, fun _ => refl m⟩

theorem along_checkStorable (v : Extended) : Along R (checkStorable v) := .ite .throw .pure

theorem along_checkUnlocked (r : RowRef) : Along R (checkUnlocked r) :=
  .bind (along_getRow r) fun _ => .ite .throw .pure

theorem along_checkOrdered (r : RowRef) : Along R (checkOrdered r) :=
  .bind (along_getRow r) fun _ => .ite .throw .pure

namespace BlindToEntries

variable (h : BlindToEntries R)

include h

omit [IsPreorder ConstraintMatrix R] in
theorem updateColumn (c : ColumnRef) {f : Column → Column}
    (hf : ∀ column, f column = { column with entries := (f column).entries }) :
    Along R (updateColumn c f) := .modify fun m => h.column m c hf

theorem updateRow (r : RowRef) {f : Row → Row}
    (hf : ∀ row, f row = { row with entries := (f row).entries }) : Along R (updateRow r f) :=
  along_updateRow_of_modifyRow fun m => h.row m r hf

/-! ## Moving entries -/

theorem tellRows (moves : List (Move RowRef)) : Along R (tellRows moves) :=
  .bind (.forIn (fun _ _ => .bind (h.updateRow _ fun _ => rfl) fun _ => .pure) _) fun _ => .pure

theorem tellColumns (moves : List (Move ColumnRef)) : Along R (tellColumns moves) :=
  .bind (.forIn (fun _ _ => .bind (h.updateColumn _ fun _ => rfl) fun _ => .pure) _) fun _ => .pure

theorem rearrangeColumn (c : ColumnRef)
    (f : Incidence RowRef → Incidence RowRef × List (Move RowRef)) :
    Along R (rearrangeColumn c f) :=
  .bind (along_getColumn c) fun _ => .bind (h.updateColumn c fun _ => rfl) fun _ => h.tellRows _

theorem rearrangeRow (r : RowRef)
    (f : Incidence ColumnRef → Incidence ColumnRef × List (Move ColumnRef)) :
    Along R (rearrangeRow r f) :=
  .bind (along_getRow r) fun _ => .bind (h.updateRow r fun _ => rfl) fun _ => h.tellColumns _

/-- The position itself is not an entry. -/
theorem setColumnActivePosition {c : ColumnRef} {position : Option Nat}
    (hposition : ∀ m : ConstraintMatrix,
      R m (m.modifyColumn c ({ · with activePosition := position }))) :
    Along R (setColumnActivePosition c position) := by
  refine .bind (along_getColumn c) fun _ => .bind (.modify hposition) fun _ => .ite ?_ .pure
  refine .bind (.forIn (fun i _ => .bind (along_getColumn c) fun _ => ?_) _) fun _ => .pure
  split
  · exact .bind (h.rearrangeRow _ _) fun _ => .pure
  · exact .pure

theorem setRowActivePosition {r : RowRef} {position : Option Nat}
    (hposition : ∀ m : ConstraintMatrix, R m (m.modifyRow r ({ · with activePosition := position }))) :
    Along R (setRowActivePosition r position) := by
  refine .bind (along_getRow r) fun _ => .bind (along_updateRow_of_modifyRow hposition) fun _ =>
    .ite ?_ .pure
  refine .bind (.forIn (fun i _ => .bind (along_getRow r) fun _ => ?_) _) fun _ => .pure
  split
  · exact .bind (h.rearrangeColumn _ _) fun _ => .pure
  · exact .pure

/-! ## Storing and removing -/

theorem mirrorInColumn (c : ColumnRef) (r : RowRef) (v : Extended) (i : Nat) :
    Along R (mirrorInColumn c r v i) := by
  refine .bind (along_checkStorable v) fun _ => .bind (along_getRow r) fun row =>
    .bind (along_getColumn c) fun column => ?_
  refine .bind (h.updateColumn c fun _ => rfl) fun _ => .bind (h.updateRow r fun _ => rfl) fun _ => ?_
  refine .when (h.rearrangeColumn c _) (.when (h.rearrangeRow r _) ?_)
  exact .ite (.bind (along_getColumn c) fun _ => .pure) .pure

theorem mirrorInRow (r : RowRef) (c : ColumnRef) (v : Extended) (i : Nat) :
    Along R (mirrorInRow r c v i) := by
  refine .bind (along_checkStorable v) fun _ => ?_
  refine .bind (along_getColumn c) fun _ => .bind (along_getRow r) fun _ => ?_
  refine .bind (h.updateRow r fun _ => rfl) fun _ => ?_
  refine .bind (h.updateColumn c fun _ => rfl) fun _ => ?_
  refine .when (h.rearrangeRow r _) (.when (h.rearrangeColumn c _) ?_)
  exact .ite (.bind (along_getRow r) fun _ => .pure) .pure

theorem insertInColumn (c : ColumnRef) (r : RowRef) (v : Extended) :
    Along R (insertInColumn c r v) := by
  refine .bind (along_checkStorable v) fun _ => ?_
  refine .bind (along_getRow r) fun _ => .bind (along_getColumn c) fun _ => ?_
  refine .bind (h.updateColumn c fun _ => rfl) fun _ => .ite ?_ .pure
  exact .bind (h.mirrorInRow r c v _) fun _ => .bind (along_getRow r) fun _ => .ite .throw .pure

theorem insertInRow (r : RowRef) (c : ColumnRef) (v : Extended) : Along R (insertInRow r c v) := by
  refine .bind (along_checkStorable v) fun _ => .bind (along_getRow r) fun _ => ?_
  refine .bind (h.updateRow r fun _ => rfl) fun _ => .ite ?_ .pure
  refine .bind (h.mirrorInColumn c r v _) fun _ => ?_
  exact .bind (along_getColumn c) fun _ => .ite .throw .pure

theorem removeFromColumn (c : ColumnRef) (i : Nat) : Along R (removeFromColumn c i) :=
  .bind (along_getColumn c) fun _ => .bind (h.rearrangeColumn c _) fun _ => .pure

theorem removeFromRow (r : RowRef) (i : Nat) : Along R (removeFromRow r i) :=
  .bind (along_getRow r) fun _ => .bind (h.rearrangeRow r _) fun _ => .pure

theorem removeBoth (c : ColumnRef) (r : RowRef) (p q : Option Nat) :
    Along R (removeBoth c r p q) := by
  cases p
  case' some i => refine .bind (h.removeFromColumn c i) fun q => ?_
  case' none => refine .bind .pure fun q => ?_
  all_goals
    cases q with
    | some j => exact .bind (h.removeFromRow r j) fun _ => .pure
    | none => exact .pure

/-! ## Whole lines -/

theorem linkColumn (c : ColumnRef) : Along R (linkColumn c) := by
  refine .bind (along_getColumn c) fun _ => .ite ?_ .pure
  refine .bind (.forIn (fun i _ => .bind (along_getColumn c) fun _ => ?_) _) fun _ => .pure
  split
  · exact .bind (h.mirrorInRow _ _ _ _) fun _ => .pure
  · exact .pure

theorem linkRow (r : RowRef) : Along R (linkRow r) := by
  refine .bind (along_getRow r) fun _ => .ite ?_ .pure
  refine .bind (.forIn (fun i _ => .bind (along_getRow r) fun _ => ?_) _) fun _ => .pure
  split
  · exact .bind (h.mirrorInColumn _ _ _ _) fun _ => .pure
  · exact .pure

theorem unlinkRow (r : RowRef) : Along R (unlinkRow r) := by
  refine .bind (along_getRow r) fun _ => .bind (.forIn (fun i _ => ?_) _) fun _ =>
    h.updateRow r fun _ => rfl
  refine .bind (along_getRow r) fun _ => ?_
  split
  · exact .bind (h.removeFromColumn _ _) fun _ => .bind (h.updateRow r fun _ => rfl) fun _ => .pure
  · exact .pure

theorem dropUnlinked (c : ColumnRef) (r : RowRef) (i n : Nat) : Along R (dropUnlinked c r i n) := by
  induction n generalizing i with
  | zero => exact .pure
  | succ n ih =>
    refine .bind (along_getColumn c) fun _ => ?_
    split
    · exact .ite (.bind (h.rearrangeColumn c _) fun _ => ih i) (ih (i + 1))
    · exact ih (i + 1)
    · exact .pure

/-- The row itself is not an entry. -/
theorem freeRow {r : RowRef}
    (hfreed : ∀ m : ConstraintMatrix, R m { m with rows := m.rows.setIfInBounds r.index none }) :
    Along R (freeRow r) := by
  refine .bind (h.unlinkRow r) fun _ => .get fun m => .bind (.forIn (fun c _ => ?_) _)
    fun _ => .modify hfreed
  refine .bind (along_getColumn c) fun _ => .ite ?_ .pure
  exact .bind (h.dropUnlinked c r _ _) fun _ => .pure

/-! ## Searching -/

omit h in
theorem firstFound {α β : Type} {search : α → MatrixM (Option β)} (hsearch : ∀ x, Along R (search x))
    (xs : List α) : Along R (firstFound search xs) := by
  induction xs with
  | nil => exact .pure
  | cons x xs ih =>
    refine .bind (hsearch x) fun found => ?_
    cases found with
    | some y => exact .pure
    | none => exact ih

theorem findInColumn (c : ColumnRef) (r : RowRef) : Along R (findInColumn c r) := by
  refine .bind (along_getRow r) fun _ => .bind (along_getColumn c) fun _ => firstFound (fun _ => ?_) _
  exact .bind (h.rearrangeColumn c _) fun _ => .bind (along_getColumn c) fun _ => .pure

theorem findInRow (r : RowRef) (c : ColumnRef) : Along R (findInRow r c) := by
  refine .bind (along_getColumn c) fun _ => .bind (along_getRow r) fun _ => firstFound (fun _ => ?_) _
  have hsearch (part : Part) : Along R (do
      ConstraintMatrix.rearrangeRow r (·.sort part)
      return (← getRow r).entries.find? part c : MatrixM (Option Nat)) :=
    .bind (h.rearrangeRow r _) fun _ => .bind (along_getRow r) fun _ => .pure
  exact .bind (along_getRow r) fun _ => .ite .pure (hsearch _)

theorem locate (c : ColumnRef) (r : RowRef) : Along R (locate c r) := by
  refine .bind (h.findInColumn c r) fun found => ?_
  cases found with
  | some i => exact .bind (along_getColumn c) fun _ => .pure
  | none => exact .bind (h.findInRow r c) fun _ => .pure

theorem coefficient (c : ColumnRef) (r : RowRef) : Along R (coefficient c r) := by
  refine .bind (along_checkOrdered r) fun _ => .bind (h.findInColumn c r) fun found => ?_
  cases found with
  | some i => exact .bind (along_getColumn c) fun _ => .pure
  | none =>
    refine .bind (h.findInRow r c) fun found => ?_
    cases found with
    | some i => exact .bind (along_getRow r) fun _ => .pure
    | none => exact .pure

end BlindToEntries

/-! ## Edits -/

namespace BlindToEdits

variable (h : BlindToEdits R)

include h

theorem remarks (c : ColumnRef) (r : RowRef) (v : Extended) :
    Along R (do ConstraintMatrix.noteIntegrality c r v; ConstraintMatrix.announceChange c r) :=
  .bind (h.noteIntegrality c r v) fun _ => h.announceChange c r

omit h in
/-- A coefficient is not stored where it exists. -/
theorem absent {x : MatrixM (Option Nat)} {e : LpError} {y : MatrixM Unit} (hx : Along R x)
    (hy : Along R y) : Along R (do
      if (← x).isSome then throw e
      y) :=
  .bind hx fun _ => .ite .throw_bind hy

theorem addInColumn (c : ColumnRef) (r : RowRef) (v : Extended) : Along R (addInColumn c r v) := by
  refine .bind (along_checkUnlocked r) fun _ => .ite .pure ?_
  refine .bind (along_checkOrdered r) fun _ => ?_
  refine absent (h.findInColumn c r) (absent (h.findInRow r c) ?_)
  exact .bind (h.insertInColumn c r v) fun _ => h.remarks c r v

theorem addInRow (r : RowRef) (c : ColumnRef) (v : Extended) : Along R (addInRow r c v) := by
  have hinsert : Along R (do
      ConstraintMatrix.insertInRow r c v
      ConstraintMatrix.noteIntegrality c r v
      ConstraintMatrix.announceChange c r) :=
    .bind (h.insertInRow r c v) fun _ => h.remarks c r v
  refine .bind (along_checkUnlocked r) fun _ => .ite .pure ?_
  refine .bind (along_getRow r) fun _ => absent (h.findInColumn c r) ?_
  exact .ite (absent (h.findInRow r c) hinsert) hinsert

theorem change (c : ColumnRef) (r : RowRef) (v : Extended) : Along R (change c r v) := by
  refine .bind (along_checkUnlocked r) fun _ => ?_
  refine .bind (along_checkOrdered r) fun _ => .ite .throw_bind ?_
  refine .bind (h.locate c r) fun found => ?_
  obtain ⟨p, q⟩ := found
  refine .ite (.ite .pure (.bind (h.removeBoth c r p q) fun _ => h.announceChange c r)) ?_
  refine .ite (.bind (h.insertInColumn c r v) fun _ => h.remarks c r v) ?_
  have hcolumn (i : Nat) : Along R (ConstraintMatrix.updateColumn c fun column =>
      { column with entries := column.entries.setValue i v }) := h.updateColumn c fun _ => rfl
  have hrow (j : Nat) : Along R (ConstraintMatrix.updateRow r fun row =>
      { row with entries := row.entries.setValue j v }) := h.updateRow r fun _ => rfl
  cases p with
  | some i =>
    cases q with
    | some j => exact .bind (hcolumn i) fun _ => .bind (hrow j) fun _ => h.remarks c r v
    | none => exact .bind (hcolumn i) fun _ => h.remarks c r v
  | none =>
    cases q with
    | some j => exact .bind (hrow j) fun _ => h.remarks c r v
    | none => exact h.remarks c r v

theorem increase (r : RowRef) (c : ColumnRef) (v : Extended) : Along R (increase r c v) := by
  refine .bind (along_checkUnlocked r) fun _ => .ite .pure ?_
  refine .bind (along_getRow r) fun _ => .ite (h.addInRow r c v) ?_
  exact .bind (h.coefficient c r) fun _ => h.change c r _

theorem delete (c : ColumnRef) (r : RowRef) : Along R (delete c r) := by
  refine .bind (along_checkUnlocked r) fun _ => ?_
  refine .bind (h.locate c r) fun _ => .ite .throw_bind ?_
  exact .bind (h.removeBoth c r _ _) fun _ => h.announceChange c r

end BlindToEdits

end ConstraintMatrix

end CertifiedLp
