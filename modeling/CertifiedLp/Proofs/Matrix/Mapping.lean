import Mathlib
import CertifiedLp.ConstraintMatrix.Coefficient
import CertifiedLp.Proofs.Forgetting
import CertifiedLp.Proofs.Incidence.Mapping
import CertifiedLp.Proofs.Run

/-!
# Matrices with other values

Operations that only link, search or remove coefficients treat a matrix and the matrix with a
function applied to all values alike. `Natural` says so of an operation, and the rules below follow
the way in which operations are built. Storing a coefficient is the exception: it looks at the
value, to refuse zero and the infinities.
-/

namespace CertifiedLp

variable {f : Extended → Extended} {α β : Type}

/-- The column with a function applied to all coefficients. -/
def Column.mapValues (f : Extended → Extended) (c : Column) : Column :=
  { c with entries := c.entries.mapValues f }

/-- The row with a function applied to all coefficients. -/
def Row.mapValues (f : Extended → Extended) (r : Row) : Row :=
  { r with entries := r.entries.mapValues f }

/-- Columns and rows, seen through a function of the coefficients. -/
def Forgetting.through (f : Extended → Extended) : Forgetting where
  column := Column.mapValues f
  row := Row.mapValues f
  column_default := by
    rw [Column.mapValues]
    exact congrArg (fun entries => { (default : Column) with entries }) Incidence.mapValues_empty

namespace ConstraintMatrix

variable {m : ConstraintMatrix} {c : ColumnRef} {r : RowRef}

/-- The matrix with a function applied to all coefficients. -/
def mapValues (f : Extended → Extended) (m : ConstraintMatrix) : ConstraintMatrix :=
  m.without (.through f)

@[simp] theorem column_mapValues (f : Extended → Extended) (m : ConstraintMatrix) (c : ColumnRef) :
    (m.mapValues f).column c = (m.column c).mapValues f := column_without m _ c

@[simp] theorem row?_mapValues (f : Extended → Extended) (m : ConstraintMatrix) (r : RowRef) :
    (m.mapValues f).row? r = (m.row? r).map (Row.mapValues f) := row?_without m _ r

@[simp] theorem columnRefs_mapValues (f : Extended → Extended) (m : ConstraintMatrix) :
    (m.mapValues f).columnRefs = m.columnRefs := by
  simp [columnRefs, mapValues, without]

theorem modifyColumn_mapValues {g g' : Column → Column}
    (h : ∀ column, g' (column.mapValues f) = (g column).mapValues f) :
    (m.mapValues f).modifyColumn c g' = (m.modifyColumn c g).mapValues f := by
  have hcolumns := modify_map m.columns c.index h
  exact congrArg (fun columns => { m.mapValues f with columns }) hcolumns

theorem modifyRow_mapValues {g g' : Row → Row}
    (h : ∀ row, g' (row.mapValues f) = (g row).mapValues f) :
    (m.mapValues f).modifyRow r g' = (m.modifyRow r g).mapValues f := by
  have hrow (row : Option Row) : Option.map g' (Option.map (Row.mapValues f) row) =
      Option.map (Row.mapValues f) (Option.map g row) := by
    cases row <;> simp [h]
  have hrows := modify_map m.rows r.index hrow
  exact congrArg (fun rows => { m.mapValues f with rows }) hrows

/-! ## Natural operations -/

/-- On a matrix with a function applied to all values, the first operation does what the second one
does on the matrix itself. -/
def Natural (f : Extended → Extended) (x' x : MatrixM α) : Prop :=
  ∀ m, x'.run.run (m.mapValues f) = ((x.run.run m).1, (x.run.run m).2.mapValues f)

namespace Natural

variable {x x' : MatrixM α} {g g' : α → MatrixM β}

theorem pure (a : α) : Natural f (Pure.pure a) (Pure.pure a) := fun _ => rfl

theorem bind (hx : Natural f x' x) (hg : ∀ a, Natural f (g' a) (g a)) :
    Natural f (x' >>= g') (x >>= g) := by
  intro m
  rw [run_bind, run_bind, hx m]
  generalize x.run.run m = y
  obtain ⟨_ | a, t⟩ := y
  · rfl
  · exact hg a t

theorem ite {p : Prop} [Decidable p] {y y' : MatrixM α} (hx : Natural f x' x)
    (hy : Natural f y' y) : Natural f (if p then x' else y') (if p then x else y) := by
  split
  · exact hx
  · exact hy

/-- A step that is taken under a condition only, and then the rest. -/
theorem when_bind {p : Prop} [Decidable p] {x x' : MatrixM PUnit} {g g' : PUnit → MatrixM β}
    (hx : Natural f x' x) (hg : Natural f (g' ⟨⟩) (g ⟨⟩)) :
    Natural f (if p then x' >>= g' else g' ⟨⟩) (if p then x >>= g else g ⟨⟩) :=
  ite (bind hx fun _ => hg) hg

theorem forIn {γ : Type} (items : List γ) {step step' : γ → PUnit → MatrixM (ForInStep PUnit)}
    (h : ∀ a u, Natural f (step' a u) (step a u)) :
    Natural f (ForIn.forIn items ⟨⟩ step') (ForIn.forIn items ⟨⟩ step) := by
  induction items with
  | nil => exact pure _
  | cons a items ih =>
    simp only [List.forIn_cons]
    apply bind (h a _)
    intro next
    cases next with
    | done u => exact pure u
    | yield u => exact ih

/-- Looking up a column, and then the rest. -/
theorem getColumn_bind {g g' : Column → MatrixM β}
    (h : ∀ column, Natural f (g' (column.mapValues f)) (g column)) :
    Natural f (getColumn c >>= g') (getColumn c >>= g) := by
  intro m
  have hcolumn := h (m.column c) m
  rw [← column_mapValues] at hcolumn
  exact hcolumn

/-- Looking at the matrix, and then the rest. -/
theorem get_bind {g g' : ConstraintMatrix → MatrixM β}
    (h : ∀ m, Natural f (g' (m.mapValues f)) (g m)) : Natural f (get >>= g') (get >>= g) :=
  fun m => h m m

/-- Looking up a row, and then the rest. -/
theorem getRow_bind {g g' : Row → MatrixM β}
    (h : ∀ row, Natural f (g' (row.mapValues f)) (g row)) :
    Natural f (getRow r >>= g') (getRow r >>= g) := by
  intro m
  have hrun (m : ConstraintMatrix) : (getRow r).run.run m = (m.existingRow r, m) := rfl
  rw [run_bind, run_bind, hrun, hrun, existingRow, existingRow, row?_mapValues]
  cases m.row? r with
  | none => rfl
  | some row => exact h row m

end Natural

theorem natural_updateColumn {g g' : Column → Column}
    (h : ∀ column, g' (column.mapValues f) = (g column).mapValues f) :
    Natural f (updateColumn c g') (updateColumn c g) := by
  intro m
  exact Prod.ext rfl (modifyColumn_mapValues h)

theorem natural_updateRow {g g' : Row → Row}
    (h : ∀ row, g' (row.mapValues f) = (g row).mapValues f) :
    Natural f (updateRow r g') (updateRow r g) := by
  apply Natural.getRow_bind
  intro row m
  exact Prod.ext rfl (modifyRow_mapValues h)

/-! ## Rearranging -/

theorem natural_tellRows (moves : List (Move RowRef)) :
    Natural f (tellRows moves) (tellRows moves) := by
  refine Natural.bind (Natural.forIn _ ?_) fun _ => Natural.pure ()
  intro move _
  refine Natural.bind (natural_updateRow ?_) fun _ => Natural.pure _
  intro row
  exact congrArg (fun entries => { row with entries }) (row.entries.relink_mapValues _ _)

theorem natural_tellColumns (moves : List (Move ColumnRef)) :
    Natural f (tellColumns moves) (tellColumns moves) := by
  refine Natural.bind (Natural.forIn _ ?_) fun _ => Natural.pure ()
  intro move _
  refine Natural.bind (natural_updateColumn ?_) fun _ => Natural.pure _
  intro column
  exact congrArg (fun entries => { column with entries }) (column.entries.relink_mapValues _ _)

theorem natural_rearrangeColumn {F : Incidence RowRef → Incidence RowRef × List (Move RowRef)}
    (h : ∀ l, F (l.mapValues f) = ((F l).1.mapValues f, (F l).2)) :
    Natural f (rearrangeColumn c F) (rearrangeColumn c F) := by
  apply Natural.getColumn_bind
  intro column
  have hlist : F (column.mapValues f).entries =
      ((F column.entries).1.mapValues f, (F column.entries).2) := h column.entries
  rw [hlist]
  apply Natural.bind
  · apply natural_updateColumn
    intro column
    rfl
  · intro _
    exact natural_tellRows _

theorem natural_rearrangeRow
    {F : Incidence ColumnRef → Incidence ColumnRef × List (Move ColumnRef)}
    (h : ∀ l, F (l.mapValues f) = ((F l).1.mapValues f, (F l).2)) :
    Natural f (rearrangeRow r F) (rearrangeRow r F) := by
  apply Natural.getRow_bind
  intro row
  have hlist : F (row.mapValues f).entries =
      ((F row.entries).1.mapValues f, (F row.entries).2) := h row.entries
  rw [hlist]
  apply Natural.bind
  · apply natural_updateRow
    intro row
    rfl
  · intro _
    exact natural_tellColumns _

theorem natural_setColumnLink (position : Nat) (link : Option Nat) :
    Natural f (setColumnLink c position link) (setColumnLink c position link) := by
  apply natural_updateColumn
  intro column
  exact congrArg (fun entries => { column with entries }) (column.entries.setLink_mapValues _ _)

theorem natural_setRowLink (position : Nat) (link : Option Nat) :
    Natural f (setRowLink r position link) (setRowLink r position link) := by
  apply natural_updateRow
  intro row
  exact congrArg (fun entries => { row with entries }) (row.entries.setLink_mapValues _ _)

/-! ## Storing counterparts -/

/-- A value that is stored, also after the function was applied. -/
def Storable (f : Extended → Extended) (v : Extended) : Prop :=
  (v.isFinite = true ∧ v ≠ 0) ∧ (f v).isFinite = true ∧ f v ≠ 0

theorem natural_checkStorable {v : Extended} (hv : Storable f v) :
    Natural f (checkStorable (f v)) (checkStorable v) := by
  have hpass {v : Extended} (hv : v.isFinite = true ∧ v ≠ 0) : checkStorable v = pure () := by
    rw [checkStorable, if_neg]
    simpa [Extended.isZero, Extended.isInfinite, hv.1] using hv.2
  rw [hpass hv.1, hpass hv.2]
  exact Natural.pure ()

theorem natural_mirrorInRow {v : Extended} (hv : Storable f v) (i : Nat) :
    Natural f (mirrorInRow r c (f v) i) (mirrorInRow r c v i) := by
  apply Natural.bind (natural_checkStorable hv)
  intro _
  apply Natural.getColumn_bind
  intro column
  apply Natural.getRow_bind
  intro row
  have hsize : (row.mapValues f).entries.size = row.entries.size := row.entries.size_mapValues f
  rw [hsize]
  apply Natural.bind
  · apply natural_updateRow
    intro row
    exact congrArg (fun entries => { row with entries })
      (row.entries.push_mapValues ⟨c, v, some i⟩)
  intro _
  apply Natural.bind (natural_setColumnLink i _)
  intro _
  have hcolumn : (column.mapValues f).isActive = column.isActive := rfl
  have hrow : (row.mapValues f).isActive = row.isActive := rfl
  rw [hcolumn, hrow]
  apply Natural.when_bind
  · apply natural_rearrangeRow
    intro l
    exact l.activate_mapValues _
  apply Natural.when_bind
  · apply natural_rearrangeColumn
    intro l
    exact l.activate_mapValues _
  apply Natural.ite
  · apply Natural.getRow_bind
    intro row
    exact Natural.pure _
  · exact Natural.pure _

theorem natural_mirrorInColumn {v : Extended} (hv : Storable f v) (i : Nat) :
    Natural f (mirrorInColumn c r (f v) i) (mirrorInColumn c r v i) := by
  apply Natural.bind (natural_checkStorable hv)
  intro _
  apply Natural.getRow_bind
  intro row
  apply Natural.getColumn_bind
  intro column
  have hsize : (column.mapValues f).entries.size = column.entries.size :=
    column.entries.size_mapValues f
  rw [hsize]
  apply Natural.bind
  · apply natural_updateColumn
    intro column
    exact congrArg (fun entries => { column with entries })
      (column.entries.push_mapValues ⟨r, v, some i⟩)
  intro _
  apply Natural.bind (natural_setRowLink i _)
  intro _
  have hcolumn : (column.mapValues f).isActive = column.isActive := rfl
  have hrow : (row.mapValues f).isActive = row.isActive := rfl
  rw [hcolumn, hrow]
  apply Natural.when_bind
  · apply natural_rearrangeColumn
    intro l
    exact l.activate_mapValues _
  apply Natural.when_bind
  · apply natural_rearrangeRow
    intro l
    exact l.activate_mapValues _
  apply Natural.ite
  · apply Natural.getColumn_bind
    intro column
    exact Natural.pure _
  · exact Natural.pure _

/-! ## Freeing -/

theorem natural_removeFromColumn (position : Nat) :
    Natural f (removeFromColumn c position) (removeFromColumn c position) := by
  apply Natural.getColumn_bind
  intro column
  have hlink : (column.mapValues f).entries.link? position = column.entries.link? position :=
    column.entries.link?_mapValues f position
  rw [hlink]
  apply Natural.bind
  · apply natural_rearrangeColumn
    intro l
    exact l.remove_mapValues position
  · intro _
    exact Natural.pure _

theorem natural_unlinkRow (r : RowRef) : Natural f (unlinkRow r) (unlinkRow r) := by
  apply Natural.getRow_bind
  intro row
  have hsize : (row.mapValues f).entries.size = row.entries.size := row.entries.size_mapValues f
  rw [hsize]
  apply Natural.bind
  · apply Natural.forIn
    intro position _
    apply Natural.getRow_bind
    intro row
    have hentry : (row.mapValues f).entries.entry? position =
        (row.entries.entry? position).map (Entry.mapValue f) :=
      row.entries.entry?_mapValues f position
    rw [hentry]
    obtain _ | ⟨c, v, _ | link⟩ := row.entries.entry? position
    · exact Natural.pure _
    · exact Natural.pure _
    · apply Natural.bind (natural_removeFromColumn link)
      intro _
      exact Natural.bind (natural_setRowLink position none) fun _ => Natural.pure _
  · intro _
    apply natural_updateRow
    intro row
    exact congrArg (fun entries => { row with entries })
      (row.entries.setNrActive_mapValues 0)

theorem natural_dropUnlinked (position remaining : Nat) :
    Natural f (dropUnlinked c r position remaining) (dropUnlinked c r position remaining) := by
  induction remaining generalizing position with
  | zero => exact Natural.pure ()
  | succ remaining ih =>
    apply Natural.getColumn_bind
    intro column
    have hentry : (column.mapValues f).entries.entry? position =
        (column.entries.entry? position).map (Entry.mapValue f) :=
      column.entries.entry?_mapValues f position
    rw [hentry]
    obtain _ | ⟨s, v, _ | link⟩ := column.entries.entry? position
    · exact Natural.pure ()
    · apply Natural.ite
      · apply Natural.bind
        · apply natural_rearrangeColumn
          intro l
          exact l.remove_mapValues position
        · intro _
          exact ih position
      · exact ih (position + 1)
    · exact ih (position + 1)

/-- Freeing a row does not depend on values. -/
theorem natural_freeRow (r : RowRef) : Natural f (freeRow r) (freeRow r) := by
  apply Natural.bind (natural_unlinkRow r)
  intro _
  apply Natural.get_bind
  intro m
  rw [columnRefs_mapValues]
  apply Natural.bind
  · apply Natural.forIn
    intro c _
    apply Natural.getColumn_bind
    intro column
    have hsize : (column.mapValues f).entries.size = column.entries.size :=
      column.entries.size_mapValues f
    dsimp only
    rw [hsize]
    apply Natural.ite
    · exact Natural.bind (natural_dropUnlinked 0 _) fun _ => Natural.pure _
    · exact Natural.pure _
  · intro _ m
    have hrows : (m.mapValues f).rows.setIfInBounds r.index none =
        (m.rows.setIfInBounds r.index none).map (Option.map (Row.mapValues f)) :=
      (Array.map_setIfInBounds (f := Option.map (Row.mapValues f)) (a := none)).symm
    exact Prod.ext rfl (congrArg (fun rows => { m.mapValues f with rows }) hrows)

/-! ## Reading a coefficient -/

theorem natural_firstFound {γ δ : Type} {search search' : γ → MatrixM (Option δ)}
    (h : ∀ a, Natural f (search' a) (search a)) (items : List γ) :
    Natural f (firstFound search' items) (firstFound search items) := by
  induction items with
  | nil => exact Natural.pure none
  | cons a items ih =>
    apply Natural.bind (h a)
    intro found
    cases found with
    | none => exact ih
    | some b => exact Natural.pure (some b)

theorem natural_findInColumn : Natural f (findInColumn c r) (findInColumn c r) := by
  apply Natural.getRow_bind
  intro row
  apply Natural.getColumn_bind
  intro column
  apply natural_firstFound
  intro part
  apply Natural.bind
  · apply natural_rearrangeColumn
    intro l
    exact l.sort_mapValues part
  · intro _
    apply Natural.getColumn_bind
    intro column
    have hfind : (column.mapValues f).entries.find? part r = column.entries.find? part r :=
      column.entries.find?_mapValues part r
    rw [hfind]
    exact Natural.pure _

theorem natural_findInRow : Natural f (findInRow r c) (findInRow r c) := by
  apply Natural.getColumn_bind
  intro column
  apply Natural.getRow_bind
  intro row
  apply natural_firstFound
  intro part
  apply Natural.getRow_bind
  intro row'
  have hsorted : (row'.mapValues f).entries.isSorted part = row'.entries.isSorted part := by
    cases part <;> rfl
  have hdelayed : (row.mapValues f).delayed = row.delayed := rfl
  rw [hsorted, hdelayed]
  apply Natural.ite
  · exact Natural.pure none
  apply Natural.bind
  · apply natural_rearrangeRow
    intro l
    exact l.sort_mapValues part
  · intro _
    apply Natural.getRow_bind
    intro row
    have hfind : (row.mapValues f).entries.find? part c = row.entries.find? part c :=
      row.entries.find?_mapValues part c
    rw [hfind]
    exact Natural.pure _

theorem natural_checkOrdered : Natural f (checkOrdered r) (checkOrdered r) := by
  apply Natural.getRow_bind
  intro row
  apply Natural.ite
  · intro m
    rfl
  · exact Natural.pure ()

/-- A coefficient that is read is the one of the matrix itself, with the function applied. -/
theorem natural_coefficient (hzero : f 0 = 0) :
    Natural f (coefficient c r) (f <$> coefficient c r) := by
  have hvalue {κ : Type} (l : Incidence κ) (i : Nat) :
      (l.mapValues f).valueAt i = f (l.valueAt i) := by
    rw [Incidence.valueAt, Incidence.valueAt, Incidence.entry?_mapValues]
    cases l.entry? i with
    | none => exact hzero.symm
    | some e => rfl
  simp only [coefficient, map_bind]
  apply Natural.bind natural_checkOrdered
  intro _
  apply Natural.bind natural_findInColumn
  intro found
  cases found with
  | some i =>
    simp only [map_bind, map_pure]
    apply Natural.getColumn_bind
    intro column
    rw [← hvalue]
    exact Natural.pure _
  | none =>
    simp only [map_bind]
    apply Natural.bind natural_findInRow
    intro found
    cases found with
    | some i =>
      simp only [map_bind, map_pure]
      apply Natural.getRow_bind
      intro row
      rw [← hvalue]
      exact Natural.pure _
    | none =>
      rw [map_pure]
      nth_rewrite 1 [← hzero]
      exact Natural.pure _

end ConstraintMatrix

end CertifiedLp
