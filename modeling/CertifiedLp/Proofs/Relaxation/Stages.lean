import Mathlib
import CertifiedLp.Proofs.Matrix.Relinking
import CertifiedLp.Proofs.Relaxation.Obsolescence

/-!
# The stages of bringing the solver up to date

Every stage in full: the calls of the solver that it makes, and what it writes down when they
succeeded. Where the solver refuses a call, nothing is written down, but lines that were linked for it
stay linked.
-/

namespace CertifiedLp

namespace ConstraintMatrix

variable {m m' : ConstraintMatrix} {c : ColumnRef} {r : RowRef}

/-! ## Changes of several lines -/

/-- Change several columns. -/
def modifyColumns (m : ConstraintMatrix) (cs : List ColumnRef) (f : Column → Column) :
    ConstraintMatrix :=
  { m with columns := cs.foldl (fun columns c => columns.modify c.index f) m.columns }

/-- Change several rows. -/
def modifyRows (m : ConstraintMatrix) (rs : List RowRef) (f : Row → Row) : ConstraintMatrix :=
  { m with rows := rs.foldl (fun rows r => rows.modify r.index fun row => row.map f) m.rows }

/-- Columns are in the solver, each at a given position behind the others. -/
def attachColumns (m : ConstraintMatrix) (xs : List (ColumnRef × Nat)) : ConstraintMatrix :=
  { m with
    columns := xs.foldl (fun columns x => columns.modify x.1.index (·.attach x.2)) m.columns
    solverColumns := xs.foldl (fun columns x => columns.push x.1) m.solverColumns }

/-- Rows are in the solver, each at a given position behind the others. -/
def attachRows (m : ConstraintMatrix) (xs : List (RowRef × Nat)) : ConstraintMatrix :=
  { m with
    rows := xs.foldl (fun rows x => rows.modify x.1.index fun row => row.map (·.attach x.2)) m.rows
    solverRows := xs.foldl (fun rows x => rows.push x.1) m.solverRows }

/-- The columns from a position on are not in the solver any more. -/
def dropColumns (m : ConstraintMatrix) (first : Nat) : ConstraintMatrix :=
  { m.modifyColumns (m.solverColumns.extract first m.solverColumns.size).toList Column.detach with
    solverColumns := m.solverColumns.extract 0 first
    firstChangedColumn := first }

/-- The rows from a position on are not in the solver any more. -/
def dropRows (m : ConstraintMatrix) (first : Nat) : ConstraintMatrix :=
  { m.modifyRows (m.solverRows.extract first m.solverRows.size).toList Row.detach with
    solverRows := m.solverRows.extract 0 first
    firstChangedRow := first }

theorem extract_eq_nil_of_le {κ : Type} {xs : Array κ} {first : Nat} (h : xs.size ≤ first) :
    (xs.extract first xs.size).toList = [] := by
  rw [Array.extract_empty_of_size_le_start h]

/-- Nothing changes where there is nothing to drop. -/
theorem dropColumns_of_le {first : Nat} (h : m.solverColumns.size ≤ first) :
    m.dropColumns first = { m with firstChangedColumn := first } := by
  rw [dropColumns, extract_eq_nil_of_le h, Array.extract_eq_self_of_le h]
  rfl

theorem dropRows_of_le {first : Nat} (h : m.solverRows.size ≤ first) :
    m.dropRows first = { m with firstChangedRow := first } := by
  rw [dropRows, extract_eq_nil_of_le h, Array.extract_eq_self_of_le h]
  rfl

theorem modifyColumns_concat (m : ConstraintMatrix) (cs : List ColumnRef) (c : ColumnRef)
    (f : Column → Column) : m.modifyColumns (cs ++ [c]) f = (m.modifyColumns cs f).modifyColumn c f := by
  rw [modifyColumns, List.foldl_append]
  rfl

theorem modifyRows_concat (m : ConstraintMatrix) (rs : List RowRef) (r : RowRef) (f : Row → Row) :
    m.modifyRows (rs ++ [r]) f = (m.modifyRows rs f).modifyRow r f := by
  rw [modifyRows, List.foldl_append]
  rfl

theorem attachColumns_concat (m : ConstraintMatrix) (xs : List (ColumnRef × Nat))
    (x : ColumnRef × Nat) : m.attachColumns (xs ++ [x]) =
      { (m.attachColumns xs).modifyColumn x.1 (·.attach x.2) with
        solverColumns := (m.attachColumns xs).solverColumns.push x.1 } := by
  rw [attachColumns, List.foldl_append, List.foldl_append]
  rfl

theorem attachRows_concat (m : ConstraintMatrix) (xs : List (RowRef × Nat)) (x : RowRef × Nat) :
    m.attachRows (xs ++ [x]) =
      { (m.attachRows xs).modifyRow x.1 (·.attach x.2) with
        solverRows := (m.attachRows xs).solverRows.push x.1 } := by
  rw [attachRows, List.foldl_append, List.foldl_append]
  rfl

theorem isSome_row?_modifyRows (m : ConstraintMatrix) (rs : List RowRef) (f : Row → Row)
    (r : RowRef) : ((m.modifyRows rs f).row? r).isSome = (m.row? r).isSome := by
  induction rs using List.reverseRecOn with
  | nil => rfl
  | append_singleton rs s ih =>
    rw [modifyRows_concat, isSome_row?_modifyRow, ih]

theorem isSome_row?_attachRows (m : ConstraintMatrix) (xs : List (RowRef × Nat)) (r : RowRef) :
    ((m.attachRows xs).row? r).isSome = (m.row? r).isSome := by
  induction xs using List.reverseRecOn with
  | nil => rfl
  | append_singleton xs x ih =>
    rw [attachRows_concat, ← ih]
    exact isSome_row?_modifyRow (m.attachRows xs) x.1 r _

end ConstraintMatrix

namespace Relaxation

open ConstraintMatrix (SameColumnTerms SameRowTerms)

variable {σ : Type} [Solver σ] {lp t : Relaxation σ} {s s' : σ} {m m' : ConstraintMatrix}
variable {E : LpError → Relaxation σ → Prop}

/-! ## Calls -/

/-- A call that is made under a condition succeeds. -/
def Called (p : Prop) (call : SolverM σ Unit) (s s' : σ) : Prop :=
  (p → call.run.run s = (.ok (), s')) ∧ (¬ p → s' = s)

/-- A call that is made under a condition is refused, with the error of the solver. -/
def Refused (p : Prop) (call : SolverM σ Unit) (e : LpError) (s s' : σ) : Prop :=
  p ∧ ∃ e', e = .solver e' ∧ call.run.run s = (.error e', s')

omit [Solver σ] in
theorem Called.of_pos {p : Prop} {call : SolverM σ Unit} (hp : p)
    (h : call.run.run s = (.ok (), s')) : Called p call s s' := ⟨fun _ => h, fun hn => (hn hp).elim⟩

omit [Solver σ] in
theorem called_of_neg {p : Prop} {call : SolverM σ Unit} (hp : ¬ p) : Called p call s s :=
  ⟨fun h => (hp h).elim, fun _ => rfl⟩

theorem ends_call (call : SolverM σ Unit) (lp : Relaxation σ) :
    Ends (onSolver call) lp
      (fun _ t => ∃ s, call.run.run lp.solver = (.ok (), s) ∧ t = { lp with solver := s })
      fun e t => ∃ s, (∃ e', e = .solver e' ∧ call.run.run lp.solver = (.error e', s)) ∧
        t = { lp with solver := s } :=
  ends_onSolver.mpr ((Ends.self call lp.solver).mono (fun _ s hs => ⟨s, hs, rfl⟩)
    fun e s hs => ⟨s, ⟨e, rfl, hs⟩, rfl⟩)

theorem ends_modifyEachColumn (cs : Array ColumnRef) (f : Column → Column) :
    Ends (forIn cs PUnit.unit fun c _ => do
        modifyMatrix (·.modifyColumn c f)
        pure (ForInStep.yield PUnit.unit) : RelaxationM σ PUnit) lp
      (fun _ t => t = { lp with matrix := lp.matrix.modifyColumns cs.toList f }) E := by
  rw [← Array.forIn_toList]
  refine Ends.forIn_list (fun done t => t = { lp with matrix := lp.matrix.modifyColumns done f })
    rfl fun done c rest t _ ht => ?_
  rw [Ends.bind_iff, ends_modifyMatrix, Ends.pure_iff, ht, ConstraintMatrix.modifyColumns_concat]
  exact ⟨rfl, rfl⟩

theorem ends_modifyEachRow (rs : Array RowRef) (f : Row → Row) :
    Ends (forIn rs PUnit.unit fun r _ => do
        modifyMatrix (·.modifyRow r f)
        pure (ForInStep.yield PUnit.unit) : RelaxationM σ PUnit) lp
      (fun _ t => t = { lp with matrix := lp.matrix.modifyRows rs.toList f }) E := by
  rw [← Array.forIn_toList]
  refine Ends.forIn_list (fun done t => t = { lp with matrix := lp.matrix.modifyRows done f })
    rfl fun done r rest t _ ht => ?_
  rw [Ends.bind_iff, ends_modifyMatrix, Ends.pure_iff, ht, ConstraintMatrix.modifyRows_concat]
  exact ⟨rfl, rfl⟩

/-! ## Deletions -/

/-- The solver has columns that it should not have. -/
def HasStaleColumns (lp : Relaxation σ) : Prop :=
  lp.firstStaleColumn < lp.matrix.solverColumns.size

/-- The solver has rows that it should not have. -/
def HasStaleRows (lp : Relaxation σ) : Prop := lp.firstStaleRow < lp.matrix.solverRows.size

/-- Delete the columns that the solver should not have. -/
def columnsDeletion (lp : Relaxation σ) : SolverM σ Unit :=
  Solver.deleteColumns lp.firstStaleColumn (lp.matrix.solverColumns.size - 1)

/-- Delete the rows that the solver should not have. -/
def rowsDeletion (lp : Relaxation σ) : SolverM σ Unit :=
  Solver.deleteRows lp.firstStaleRow (lp.matrix.solverRows.size - 1)

theorem ends_syncDeletedColumns_exactly (lp : Relaxation σ) :
    Ends syncDeletedColumns lp
      (fun _ t => ∃ s flags status, Called lp.HasStaleColumns lp.columnsDeletion lp.solver s ∧
        t = { lp with
          matrix := lp.matrix.dropColumns lp.firstStaleColumn, solver := s, flags, status })
      fun e t => ∃ s, Refused lp.HasStaleColumns lp.columnsDeletion e lp.solver s ∧
        t = { lp with solver := s } := by
  rw [syncDeletedColumns, Ends.bind_iff, Ends.get_iff, Ends.ite_iff]
  refine ⟨fun hlt => ?_, fun hge => ?_⟩
  · rw [Ends.bind_iff]
    refine (ends_call _ lp).mono ?_ ?_
    · rintro _ t ⟨s, hs, rfl⟩
      rw [Ends.bind_iff, ends_modifyMatrix, Ends.bind_iff]
      refine (ends_modifyEachColumn _ _).mono_ok ?_
      rintro _ u rfl
      simp only [markUnsolved, Ends.bind_iff, Ends.modify_iff, ends_modifyMatrix]
      exact ⟨s, _, _, .of_pos hlt hs, rfl⟩
    · rintro e t ⟨s, hs, rfl⟩
      exact ⟨s, ⟨hlt, hs⟩, rfl⟩
  · rw [ends_modifyMatrix]
    refine ⟨lp.solver, lp.flags, lp.status, called_of_neg hge, ?_⟩
    rw [ConstraintMatrix.dropColumns_of_le (Nat.not_lt.mp hge)]

theorem ends_syncDeletedRows_exactly (lp : Relaxation σ) :
    Ends syncDeletedRows lp
      (fun _ t => ∃ s flags status, Called lp.HasStaleRows lp.rowsDeletion lp.solver s ∧
        t = { lp with matrix := lp.matrix.dropRows lp.firstStaleRow, solver := s, flags, status })
      fun e t => ∃ s, Refused lp.HasStaleRows lp.rowsDeletion e lp.solver s ∧
        t = { lp with solver := s } := by
  rw [syncDeletedRows, Ends.bind_iff, Ends.get_iff, Ends.ite_iff]
  refine ⟨fun hlt => ?_, fun hge => ?_⟩
  · rw [Ends.bind_iff]
    refine (ends_call _ lp).mono ?_ ?_
    · rintro _ t ⟨s, hs, rfl⟩
      rw [Ends.bind_iff, ends_modifyMatrix, Ends.bind_iff]
      refine (ends_modifyEachRow _ _).mono_ok ?_
      rintro _ u rfl
      simp only [markUnsolved, Ends.bind_iff, Ends.modify_iff, ends_modifyMatrix]
      exact ⟨s, _, _, .of_pos hlt hs, rfl⟩
    · rintro e t ⟨s, hs, rfl⟩
      exact ⟨s, ⟨hlt, hs⟩, rfl⟩
  · rw [ends_modifyMatrix]
    refine ⟨lp.solver, lp.flags, lp.status, called_of_neg hge, ?_⟩
    rw [ConstraintMatrix.dropRows_of_le (Nat.not_lt.mp hge)]

/-! ## Changes -/

theorem mem_queuedColumns {x : Nat × Column} : x ∈ lp.queuedColumns ↔ ∃ c ∈ lp.changedColumns,
    (lp.matrix.column c).solverPosition = some x.1 ∧ lp.matrix.column c = x.2 := by
  rw [queuedColumns, Array.mem_filterMap]
  refine exists_congr fun c => and_congr_right fun _ => ?_
  rw [Option.map_eq_some_iff]
  constructor
  · rintro ⟨p, hp, rfl⟩
    exact ⟨hp, rfl⟩
  · rintro ⟨hp, hcolumn⟩
    exact ⟨x.1, hp, Prod.ext rfl hcolumn⟩

theorem mem_queuedRows {x : Nat × Row} : x ∈ lp.queuedRows ↔ ∃ r ∈ lp.changedRows,
    lp.matrix.row? r = some x.2 ∧ x.2.solverPosition = some x.1 := by
  rw [queuedRows, Array.mem_filterMap]
  refine exists_congr fun r => and_congr_right fun _ => ?_
  cases lp.matrix.row? r with
  | none => simp
  | some row =>
    cases hposition : row.solverPosition with
    | none =>
      simp only [Option.bind_eq_bind, Option.bind_some, hposition, Option.bind_none, reduceCtorEq,
        Option.some_inj, false_iff, not_and]
      rintro rfl h
      exact nomatch hposition.symm.trans h
    | some p =>
      simp only [Option.bind_eq_bind, Option.bind_some, hposition, Option.pure_def, Option.some_inj]
      constructor
      · rintro rfl
        exact ⟨rfl, hposition⟩
      · rintro ⟨rfl, h⟩
        exact Prod.ext (Option.some.inj (hposition.symm.trans h)) rfl

/-- The queued columns of which the solver has another objective coefficient. -/
def changedCosts (lp : Relaxation σ) : Array (Nat × Column) :=
  lp.queuedColumns.filter fun x => x.2.spec.objective ≠ x.2.sent.objective

/-- The queued columns of which the solver has other bounds. -/
def changedBounds (lp : Relaxation σ) : Array (Nat × Column) :=
  lp.queuedColumns.filter fun x => x.2.spec.bounds ≠ x.2.sent.bounds

/-- The queued rows of which the solver has other sides. -/
def changedSides (lp : Relaxation σ) : Array (Nat × Row) :=
  lp.queuedRows.filter fun x => x.2.spec ≠ x.2.sent

/-- Tell the solver the changed objective coefficients. -/
def costsChange (lp : Relaxation σ) : SolverM σ Unit :=
  Solver.changeObjective (lp.changedCosts.map (·.1)) (lp.changedCosts.map (·.2.spec.objective))

/-- Tell the solver the changed bounds. -/
def boundsChange (lp : Relaxation σ) : SolverM σ Unit :=
  Solver.changeBounds (lp.changedBounds.map (·.1))
    (lp.changedBounds.map fun x => Solver.encode lp.solver x.2.spec.bounds.lower)
    (lp.changedBounds.map fun x => Solver.encode lp.solver x.2.spec.bounds.upper)

/-- Tell the solver the changed sides. -/
def sidesChange (lp : Relaxation σ) : SolverM σ Unit :=
  Solver.changeSides (lp.changedSides.map (·.1))
    (lp.changedSides.map fun x => Solver.encode lp.solver (x.2.spec.solverSide .lower))
    (lp.changedSides.map fun x => Solver.encode lp.solver (x.2.spec.solverSide .upper))

/-- The solver was told what a column says. -/
def noteColumn (column : Column) : Column := { column with sent := column.spec }

/-- The solver was told what a row says. -/
def noteRow (row : Row) : Row := { row with sent := row.spec }

/-- The queued columns are up to date in the solver. -/
def noteColumns (lp : Relaxation σ) : Relaxation σ := { lp with
  matrix := lp.matrix.modifyColumns lp.changedColumns.toList noteColumn, changedColumns := #[] }

/-- The queued rows are up to date in the solver. -/
def noteRows (lp : Relaxation σ) : Relaxation σ := { lp with
  matrix := lp.matrix.modifyRows lp.changedRows.toList noteRow, changedRows := #[] }

theorem ends_noteColumns (lp : Relaxation σ) (cs : Array ColumnRef) :
    Ends (do
      for c in cs do
        modifyMatrix (·.modifyColumn c fun column => { column with sent := column.spec })
      modify ({ · with changedColumns := #[] }) : RelaxationM σ Unit) lp
      (fun _ t => t = { lp with
        matrix := lp.matrix.modifyColumns cs.toList noteColumn, changedColumns := #[] }) E := by
  rw [Ends.bind_iff]
  refine (ends_modifyEachColumn cs noteColumn).mono_ok ?_
  rintro _ t rfl
  rfl

theorem ends_noteRows (lp : Relaxation σ) (rs : Array RowRef) :
    Ends (do
      for r in rs do
        modifyMatrix (·.modifyRow r fun row => { row with sent := row.spec })
      modify ({ · with changedRows := #[] }) : RelaxationM σ Unit) lp
      (fun _ t => t = { lp with
        matrix := lp.matrix.modifyRows rs.toList noteRow, changedRows := #[] }) E := by
  rw [Ends.bind_iff]
  refine (ends_modifyEachRow rs noteRow).mono_ok ?_
  rintro _ t rfl
  rfl

/-- A call under a condition, and what follows in any case. -/
theorem ends_callIf {p : Prop} [Decidable p] {call : SolverM σ Unit} {rest : RelaxationM σ Unit}
    {Q : Unit → Relaxation σ → Prop}
    (h : ∀ s flags status, Called p call lp.solver s →
      Ends rest { lp with solver := s, flags, status } Q E)
    (hE : ∀ e s, Refused p call e lp.solver s → E e { lp with solver := s }) :
    Ends (if p then do
      onSolver call
      markUnsolved
      rest
    else rest) lp Q E := by
  rw [Ends.ite_iff]
  refine ⟨fun hp => ?_, fun hp => h lp.solver lp.flags lp.status (called_of_neg hp)⟩
  rw [Ends.bind_iff]
  refine (ends_call call lp).mono ?_ ?_
  · rintro _ t ⟨s, hs, rfl⟩
    exact h s _ _ (.of_pos hp hs)
  · rintro e t ⟨s, hs, rfl⟩
    exact hE e s ⟨hp, hs⟩

theorem ends_syncChangedColumns_exactly (lp : Relaxation σ) :
    Ends syncChangedColumns lp
      (fun _ t => ∃ s s' flags status,
        Called (!lp.changedCosts.isEmpty) lp.costsChange lp.solver s ∧
        Called (!lp.changedBounds.isEmpty) lp.boundsChange s s' ∧
        t = { lp.noteColumns with solver := s', flags, status })
      fun e t => ∃ s s' flags status,
        (Refused (!lp.changedCosts.isEmpty) lp.costsChange e lp.solver s' ∨
          Called (!lp.changedCosts.isEmpty) lp.costsChange lp.solver s ∧
          Refused (!lp.changedBounds.isEmpty) lp.boundsChange e s s') ∧
        t = { lp with solver := s', flags, status } := by
  rw [syncChangedColumns, Ends.bind_iff, Ends.get_iff]
  refine ends_callIf (fun s flags status hs => ?_) fun _ s hs =>
    ⟨lp.solver, s, lp.flags, lp.status, .inl hs, rfl⟩
  refine ends_callIf (fun s' flags' status' hs' => ?_) fun _ s' hs' =>
    ⟨s, s', flags, status, .inr ⟨hs, hs'⟩, rfl⟩
  exact (ends_noteColumns _ _).mono_ok fun _ t ht => ⟨s, s', flags', status', hs, hs', ht⟩

theorem ends_syncChangedRows_exactly (lp : Relaxation σ) :
    Ends syncChangedRows lp
      (fun _ t => ∃ s flags status,
        Called (!lp.changedSides.isEmpty) lp.sidesChange lp.solver s ∧
        t = { lp.noteRows with solver := s, flags, status })
      fun e t => ∃ s, Refused (!lp.changedSides.isEmpty) lp.sidesChange e lp.solver s ∧
        t = { lp with solver := s } := by
  rw [syncChangedRows, Ends.bind_iff, Ends.get_iff]
  refine ends_callIf (fun s flags status hs => ?_) fun _ s hs => ⟨s, hs, rfl⟩
  exact (ends_noteRows _ _).mono_ok fun _ t ht => ⟨s, flags, status, hs, ht⟩

/-! ## Batches -/

/-- Append a column to a batch. -/
def withColumn (m : ConstraintMatrix) (s : σ) (batch : ColumnBatch) (c : ColumnRef) : ColumnBatch where
  objective := batch.objective.push (m.column c).spec.objective
  lower := batch.lower.push (Solver.encode s (m.column c).spec.bounds.lower)
  upper := batch.upper.push (Solver.encode s (m.column c).spec.bounds.upper)
  entries := batch.entries.push (columnItems m (m.column c))

/-- Append a row to a batch. -/
def withRow (m : ConstraintMatrix) (s : σ) (batch : RowBatch) (r : RowRef) : RowBatch :=
  match m.row? r with
  | none => batch
  | some row => {
    lhs := batch.lhs.push (Solver.encode s (row.spec.solverSide .lower))
    rhs := batch.rhs.push (Solver.encode s (row.spec.solverSide .upper))
    entries := batch.entries.push (rowItems m row) }

/-- Columns as they are handed to a solver. -/
def columnBatch (m : ConstraintMatrix) (s : σ) (cs : List ColumnRef) : ColumnBatch :=
  cs.foldl (withColumn m s) .empty

/-- Rows as they are handed to a solver. -/
def rowBatch (m : ConstraintMatrix) (s : σ) (rs : List RowRef) : RowBatch :=
  rs.foldl (withRow m s) .empty

theorem columnItems_eq (m : ConstraintMatrix) (column : Column) : columnItems m column =
    column.entries.activeTerms.filterMap fun x =>
      ((m.row? x.1).bind (·.solverPosition)).map fun position => (position, x.2) := by
  rw [Incidence.activeTerms, List.filterMap_map]
  rfl

theorem rowItems_eq (m : ConstraintMatrix) (row : Row) : rowItems m row =
    row.entries.activeTerms.filterMap fun x =>
      (m.column x.1).solverPosition.map fun position => (position, x.2) := by
  rw [Incidence.activeTerms, List.filterMap_map]
  rfl

/-- What is said of a column in a batch does not depend on links. -/
theorem withColumn_congr (h : m'.without .entries = m.without .entries) {c : ColumnRef}
    (hterms : SameColumnTerms c m m') (s : σ) (batch : ColumnBatch) :
    withColumn m' s batch c = withColumn m s batch c := by
  have hspec : (m'.column c).spec = (m.column c).spec :=
    Forgetting.column_congr Column.spec (ConstraintMatrix.column_eq_of_without h c) fun _ => rfl
  have hposition (r : RowRef) :
      (m'.row? r).bind (·.solverPosition) = (m.row? r).bind (·.solverPosition) := by
    have hrow := congrArg (·.bind (·.solverPosition)) (ConstraintMatrix.row?_eq_of_without h r)
    rwa [Option.bind_map, Option.bind_map] at hrow
  have hitems : columnItems m' (m'.column c) = columnItems m (m.column c) := by
    rw [columnItems_eq, columnItems_eq, show (m'.column c).entries.activeTerms = _ from hterms]
    simp only [hposition]
  rw [withColumn, withColumn, hspec, hitems]

theorem withRow_congr (h : m'.without .entries = m.without .entries) {r : RowRef}
    (hterms : SameRowTerms r m m') (s : σ) (batch : RowBatch) :
    withRow m' s batch r = withRow m s batch r := by
  rw [withRow, withRow]
  cases hrow : m.row? r with
  | none =>
    rw [SameRowTerms, hrow, Option.map_none, Option.map_eq_none_iff] at hterms
    rw [hterms]
  | some row =>
    obtain ⟨row', hrow', heq⟩ := ConstraintMatrix.row_eq_of_without h hrow
    have hspec : row'.spec = row.spec := Forgetting.row_congr Row.spec heq fun _ => rfl
    have hposition (c : ColumnRef) : (m'.column c).solverPosition = (m.column c).solverPosition :=
      Forgetting.column_congr Column.solverPosition (ConstraintMatrix.column_eq_of_without h c)
        fun _ => rfl
    rw [SameRowTerms, hrow, hrow', Option.map_some, Option.map_some, Option.some_inj] at hterms
    have hitems : rowItems m' row' = rowItems m row := by
      rw [rowItems_eq, rowItems_eq, hterms]
      simp only [hposition]
    rw [hrow']
    simp only [hspec, hitems]

theorem columnBatch_congr (h : m'.without .entries = m.without .entries) {cs : List ColumnRef}
    (hterms : ∀ c ∈ cs, SameColumnTerms c m m') (s : σ) : columnBatch m' s cs = columnBatch m s cs :=
  List.foldl_ext _ _ _ fun batch c hc => withColumn_congr h (hterms c hc) s batch

theorem rowBatch_congr (h : m'.without .entries = m.without .entries) {rs : List RowRef}
    (hterms : ∀ r ∈ rs, SameRowTerms r m m') (s : σ) : rowBatch m' s rs = rowBatch m s rs :=
  List.foldl_ext _ _ _ fun batch r hr => withRow_congr h (hterms r hr) s batch

theorem columnBatch_concat (m : ConstraintMatrix) (s : σ) (cs : List ColumnRef) (c : ColumnRef) :
    columnBatch m s (cs ++ [c]) = withColumn m s (columnBatch m s cs) c := by
  rw [columnBatch, List.foldl_append]
  rfl

theorem rowBatch_concat (m : ConstraintMatrix) (s : σ) (rs : List RowRef) (r : RowRef) :
    rowBatch m s (rs ++ [r]) = withRow m s (rowBatch m s rs) r := by
  rw [rowBatch, List.foldl_append]
  rfl

/-- A batch is made of columns as they are when all of them are linked. -/
theorem ends_batchColumns_exactly (hm : lp.matrix.Sound) {cs : List ColumnRef} (hcs : cs.Nodup) :
    Ends (cs.foldlM batchColumn .empty) lp
      (fun batch t => t = { lp with matrix := lp.matrix.linkColumns cs } ∧
        batch = columnBatch t.matrix lp.solver cs) E := by
  refine Ends.foldlM_list (fun done batch t =>
    t = { lp with matrix := lp.matrix.linkColumns done } ∧
      batch = columnBatch t.matrix lp.solver done) ⟨rfl, rfl⟩ ?_
  rintro done c rest _ _ hxs ⟨rfl, rfl⟩
  have hc : ∀ d ∈ done, d ≠ c := fun d hd heq =>
    not_mem_of_nodup hcs hxs (heq ▸ hd)
  have hlinked := hm.linkColumns done
  have hrun := (ConstraintMatrix.ends_linkColumn (E := fun _ _ => False) hlinked.sound c).and
    (Ends.self _ _)
  rw [batchColumn, Ends.bind_iff, ends_onMatrix]
  refine hrun.mono (fun _ m hm => ?_) fun _ _ h => h.1.elim
  obtain ⟨hlinks, heq⟩ := hm
  have hm' : m = lp.matrix.linkColumns (done ++ [c]) := by
    rw [ConstraintMatrix.linkColumns_concat, heq]
  have hbatch : columnBatch m lp.solver done =
      columnBatch (lp.matrix.linkColumns done) lp.solver done := by
    refine columnBatch_congr hlinks.1.without (fun d hd => ?_) lp.solver
    have hterms := (ConstraintMatrix.columnTerms_linkColumn (hc d hd)).state
      (lp.matrix.linkColumns done)
    rwa [heq] at hterms
  rw [Ends.bind_iff, Ends.get_iff, Ends.pure_iff]
  refine ⟨by rw [hm'], ?_⟩
  rw [columnBatch_concat, hbatch]
  rfl

/-- A batch is made of rows as they are when all of them are linked. -/
theorem ends_batchRows_exactly (hm : lp.matrix.Sound) {rs : List RowRef} (hrs : rs.Nodup)
    (hlive : ∀ r ∈ rs, lp.matrix.InOrder (.row r) ∧ lp.matrix.Has (.row r)) :
    Ends (rs.foldlM batchRow .empty) lp
      (fun batch t => t = { lp with matrix := lp.matrix.linkRows rs } ∧
        batch = rowBatch t.matrix lp.solver rs) E := by
  refine Ends.foldlM_list (fun done batch t =>
    t = { lp with matrix := lp.matrix.linkRows done } ∧
      batch = rowBatch t.matrix lp.solver done) ⟨rfl, rfl⟩ ?_
  rintro done r rest _ _ hxs ⟨rfl, rfl⟩
  have hr : ∀ s ∈ done, s ≠ r := fun s hs heq => not_mem_of_nodup hrs hxs (heq ▸ hs)
  have hlinked : ConstraintMatrix.LinksAll (done.map .row) lp.matrix (lp.matrix.linkRows done) :=
    hm.linkRows fun s hs => hlive s (by simp [hxs, hs])
  obtain ⟨horder, hhas⟩ := hlive r (by simp [hxs])
  obtain ⟨row, hrow⟩ := Option.isSome_iff_exists.mp
    ((ConstraintMatrix.has_congr hlinked.without (.row r)).mpr hhas)
  have hrun := (ConstraintMatrix.ends_linkRow (E := fun _ _ => False) hlinked.sound
    ((ConstraintMatrix.inOrder_congr hlinked.without _).mpr horder) hrow).and (Ends.self _ _)
  rw [batchRow, Ends.bind_iff, ends_onMatrix]
  refine hrun.mono (fun _ m hm => ?_) fun _ _ h => h.1.elim
  obtain ⟨hlinks, heq⟩ := hm
  have hm' : m = lp.matrix.linkRows (done ++ [r]) := by
    rw [ConstraintMatrix.linkRows_concat, heq]
  have hbatch : rowBatch m lp.solver done = rowBatch (lp.matrix.linkRows done) lp.solver done := by
    refine rowBatch_congr hlinks.1.without (fun s hs => ?_) lp.solver
    have hterms := (ConstraintMatrix.rowTerms_linkRow (hr s hs)).state (lp.matrix.linkRows done)
    rwa [heq] at hterms
  obtain ⟨row', hrow', -⟩ := ConstraintMatrix.row_eq_of_without hlinks.1.without hrow
  rw [Ends.bind_iff, Ends.get_iff, Ends.bind_iff, ends_getRow hrow', Ends.pure_iff]
  refine ⟨by rw [hm'], ?_⟩
  rw [rowBatch_concat, hbatch, withRow, hrow']

/-! ## Additions -/

/-- The active columns that the solver does not have. -/
def newColumns (lp : Relaxation σ) : List ColumnRef :=
  (lp.columns.extract lp.matrix.solverColumns.size lp.columns.size).toList

/-- The active rows that the solver does not have. -/
def newRows (lp : Relaxation σ) : List RowRef :=
  (lp.rows.extract lp.matrix.solverRows.size lp.rows.size).toList

/-- The new columns are linked. -/
def linkNewColumns (lp : Relaxation σ) : Relaxation σ :=
  { lp with matrix := lp.matrix.linkColumns lp.newColumns }

/-- The new rows are linked. -/
def linkNewRows (lp : Relaxation σ) : Relaxation σ :=
  { lp with matrix := lp.matrix.linkRows lp.newRows }

/-- Hand the new columns to the solver. -/
def columnsAddition (lp : Relaxation σ) : SolverM σ Unit :=
  Solver.addColumns (columnBatch lp.matrix lp.solver lp.newColumns)

/-- Hand the new rows to the solver. -/
def rowsAddition (lp : Relaxation σ) : SolverM σ Unit :=
  Solver.addRows (rowBatch lp.matrix lp.solver lp.newRows)

/-- The new columns are in the solver. -/
def attachNewColumns (lp : Relaxation σ) : Relaxation σ := { lp with
  matrix := { lp.matrix.attachColumns (lp.newColumns.zipIdx lp.matrix.solverColumns.size) with
    firstChangedColumn := lp.columns.size } }

/-- The new rows are in the solver. -/
def attachNewRows (lp : Relaxation σ) : Relaxation σ := { lp with
  matrix := { lp.matrix.attachRows (lp.newRows.zipIdx lp.matrix.solverRows.size) with
    firstChangedRow := lp.rows.size } }

theorem Coherent.nodup_newColumns (hlp : lp.Coherent) : lp.newColumns.Nodup :=
  (sublist_extract ..).nodup hlp.placed.columns.nodup

theorem Coherent.nodup_newRows (hlp : lp.Coherent) : lp.newRows.Nodup :=
  (sublist_extract ..).nodup hlp.placed.rows.nodup

/-- The new rows exist, and do not delay their order. -/
theorem Coherent.live_newRows (hlp : lp.Coherent) :
    ∀ r ∈ lp.newRows, lp.matrix.InOrder (.row r) ∧ lp.matrix.Has (.row r) := by
  intro r hr
  obtain ⟨row, hrow, -, hordered⟩ :=
    hlp.exists_row_of_mem (Array.mem_toList_iff.mp ((sublist_extract ..).subset hr))
  exact ⟨(ConstraintMatrix.inOrder_row hrow).mpr hordered, by rw [ConstraintMatrix.Has, hrow]; rfl⟩

/-- Linking does not change which columns are new. -/
theorem Coherent.newColumns_linkNewColumns (hlp : lp.Coherent) :
    lp.linkNewColumns.newColumns = lp.newColumns := by
  have hheld : lp.linkNewColumns.matrix.solverColumns = lp.matrix.solverColumns :=
    congrArg (·.solverColumns) (hlp.sound.linkColumns lp.newColumns).without
  rw [newColumns, hheld]
  rfl

theorem Coherent.newRows_linkNewRows (hlp : lp.Coherent) :
    lp.linkNewRows.newRows = lp.newRows := by
  have hheld : lp.linkNewRows.matrix.solverRows = lp.matrix.solverRows :=
    congrArg (·.solverRows) (hlp.sound.linkRows hlp.live_newRows).without
  rw [newRows, hheld]
  rfl

/-- To link the new columns again does nothing. -/
theorem Coherent.linkNewColumns_again (hlp : lp.Coherent) :
    lp.linkNewColumns.linkNewColumns = lp.linkNewColumns := by
  have hlinked := hlp.sound.linkColumns lp.newColumns
  rw [linkNewColumns, hlp.newColumns_linkNewColumns]
  exact congrArg (fun m => { lp with matrix := m }) <|
    hlinked.sound.linkColumns_again fun c hc => hlinked.linked _ (List.mem_map_of_mem hc)

theorem Coherent.linkNewRows_again (hlp : lp.Coherent) :
    lp.linkNewRows.linkNewRows = lp.linkNewRows := by
  have hlive := hlp.live_newRows
  have hlinked := hlp.sound.linkRows hlive
  rw [linkNewRows, hlp.newRows_linkNewRows]
  refine congrArg (fun m => { lp with matrix := m }) <|
    hlinked.sound.linkRows_again fun r hr => ⟨hlinked.linked _ (List.mem_map_of_mem hr), ?_⟩
  exact (ConstraintMatrix.has_congr hlinked.without (.row r)).mpr (hlive r hr).2

theorem ends_attachEachColumn (xs : List (ColumnRef × Nat)) :
    Ends (forIn xs PUnit.unit fun x _ => do
        modifyMatrix fun m =>
          { m.modifyColumn x.1 (·.attach x.2) with solverColumns := m.solverColumns.push x.1 }
        pure (ForInStep.yield PUnit.unit) : RelaxationM σ PUnit) lp
      (fun _ t => t = { lp with matrix := lp.matrix.attachColumns xs }) E := by
  refine Ends.forIn_list (fun done t => t = { lp with matrix := lp.matrix.attachColumns done })
    rfl fun done x rest t _ ht => ?_
  rw [Ends.bind_iff, ends_modifyMatrix, Ends.pure_iff, ht, ConstraintMatrix.attachColumns_concat]
  exact ⟨rfl, rfl⟩

theorem ends_attachEachRow {xs : List (RowRef × Nat)}
    (hxs : ∀ x ∈ xs, (lp.matrix.row? x.1).isSome = true) :
    Ends (forIn xs PUnit.unit fun x _ => do
        updateRow x.1 (·.attach x.2)
        modifyMatrix fun m => { m with solverRows := m.solverRows.push x.1 }
        pure (ForInStep.yield PUnit.unit) : RelaxationM σ PUnit) lp
      (fun _ t => t = { lp with matrix := lp.matrix.attachRows xs }) E := by
  refine Ends.forIn_list (fun done t => t = { lp with matrix := lp.matrix.attachRows done })
    rfl fun done x rest t hdone ht => ?_
  subst ht
  obtain ⟨row, hrow⟩ := Option.isSome_iff_exists.mp
    ((ConstraintMatrix.isSome_row?_attachRows lp.matrix done x.1).trans (hxs x (by simp [hdone])))
  rw [Ends.bind_iff, ends_updateRow hrow, Ends.bind_iff, ends_modifyMatrix, Ends.pure_iff,
    ConstraintMatrix.attachRows_concat]
  exact ⟨rfl, rfl⟩

theorem ends_syncAddedColumns_exactly (hlp : lp.Coherent)
    (hnew : lp.matrix.solverColumns.size ≠ lp.columns.size) :
    Ends syncAddedColumns lp
      (fun _ t => ∃ s flags status,
        lp.linkNewColumns.columnsAddition.run.run lp.solver = (.ok (), s) ∧
        t = { lp.linkNewColumns.attachNewColumns with solver := s, flags, status })
      fun e t => ∃ s, Refused (lp.matrix.solverColumns.size ≠ lp.columns.size)
          lp.linkNewColumns.columnsAddition e lp.solver s ∧
        t = { lp.linkNewColumns with solver := s } := by
  have hheld : lp.linkNewColumns.matrix.solverColumns = lp.matrix.solverColumns :=
    congrArg (·.solverColumns) (hlp.sound.linkColumns lp.newColumns).without
  have hnewColumns := hlp.newColumns_linkNewColumns
  rw [syncAddedColumns, Ends.bind_iff, Ends.get_iff, if_pos hnew, Ends.bind_iff]
  refine (ends_batchColumns_exactly hlp.sound hlp.nodup_newColumns).mono_ok ?_
  rintro _ _ ⟨rfl, rfl⟩
  rw [Ends.bind_iff]
  refine (ends_call _ _).mono ?_ ?_
  · rintro _ t ⟨s, hs, rfl⟩
    rw [Ends.bind_iff]
    refine (ends_attachEachColumn _).mono_ok ?_
    rintro _ u rfl
    simp only [loseDual, markUnsolved, Ends.bind_iff, Ends.modify_iff, ends_modifyMatrix]
    refine ⟨s, { lp.flags with solved := false, dualFeasible := false, dualChecked := false },
      .notSolved, ?_, ?_⟩
    · rwa [columnsAddition, hnewColumns]
    · rw [attachNewColumns, hnewColumns, hheld]
      rfl
  · rintro e t ⟨s, hs, rfl⟩
    refine ⟨s, ⟨hnew, ?_⟩, rfl⟩
    rwa [columnsAddition, hnewColumns]

theorem ends_syncAddedRows_exactly (hlp : lp.Coherent)
    (hnew : lp.matrix.solverRows.size ≠ lp.rows.size) :
    Ends syncAddedRows lp
      (fun _ t => ∃ s flags status,
        lp.linkNewRows.rowsAddition.run.run lp.solver = (.ok (), s) ∧
        t = { lp.linkNewRows.attachNewRows with solver := s, flags, status })
      fun e t => ∃ s, Refused (lp.matrix.solverRows.size ≠ lp.rows.size)
          lp.linkNewRows.rowsAddition e lp.solver s ∧
        t = { lp.linkNewRows with solver := s } := by
  have hlive := hlp.live_newRows
  have hlinked := hlp.sound.linkRows hlive
  have hheld : lp.linkNewRows.matrix.solverRows = lp.matrix.solverRows :=
    congrArg (·.solverRows) hlinked.without
  have hnewRows := hlp.newRows_linkNewRows
  rw [syncAddedRows, Ends.bind_iff, Ends.get_iff, if_pos hnew, Ends.bind_iff]
  refine (ends_batchRows_exactly hlp.sound hlp.nodup_newRows hlive).mono_ok ?_
  rintro _ _ ⟨rfl, rfl⟩
  rw [Ends.bind_iff]
  refine (ends_call _ _).mono ?_ ?_
  · rintro _ t ⟨s, hs, rfl⟩
    rw [Ends.bind_iff]
    refine (ends_attachEachRow ?_).mono_ok ?_
    · intro x hx
      exact (ConstraintMatrix.has_congr hlinked.without (.row x.1)).mpr
        (hlive x.1 (List.zipIdx_map_fst lp.matrix.solverRows.size lp.newRows ▸
          List.mem_map_of_mem hx)).2
    rintro _ u rfl
    simp only [losePrimal, markUnsolved, Ends.bind_iff, Ends.modify_iff, ends_modifyMatrix]
    refine ⟨s, { lp.flags with solved := false, primalFeasible := false, primalChecked := false },
      .notSolved, ?_, ?_⟩
    · rwa [rowsAddition, hnewRows]
    · rw [attachNewRows, hnewRows, hheld]
      rfl
  · rintro e t ⟨s, hs, rfl⟩
    refine ⟨s, ⟨hnew, ?_⟩, rfl⟩
    rwa [rowsAddition, hnewRows]

end Relaxation

end CertifiedLp
