import Mathlib
import CertifiedLp.Proofs.Matrix.Attaching
import CertifiedLp.Proofs.Relaxation.Membership

/-!
# Bringing the solver up to date

A synchronization keeps a relaxation coherent, also if the solver refuses a call in the middle of
it. After the deletions, the lines in the solver are the first active lines, and those that are
added are the others, in their order.
-/

namespace CertifiedLp

/-! ## The lines that stay -/

theorem countWhile_le (first stop : Nat) (test : Nat → Bool) :
    Relaxation.countWhile first stop test ≤ stop - first := by
  rw [Relaxation.countWhile]
  exact (List.takeWhile_sublist _).length_le.trans (by rw [List.length_range'])

theorem test_of_lt_countWhile {first stop : Nat} {test : Nat → Bool} {k : Nat}
    (hk : k < Relaxation.countWhile first stop test) : test (first + k) = true := by
  have hlt : k < stop - first := Nat.lt_of_lt_of_le hk (countWhile_le first stop test)
  have hmem := List.getElem_mem (l := (List.range' first (stop - first)).takeWhile test) hk
  have htest := List.mem_takeWhile_imp hmem
  rwa [List.IsPrefix.getElem (List.takeWhile_prefix test) hk, List.getElem_range',
    Nat.one_mul] at htest

/-- Two lists agree further on as long as a test says so. -/
theorem AgreeBelow.extend {κ : Type} {xs ys : Array κ} {n : Nat} (h : AgreeBelow n xs ys)
    {test : Nat → Bool} (htest : ∀ i, test i = true → xs[i]? = ys[i]?) :
    AgreeBelow (n + Relaxation.countWhile n (min ys.size xs.size) test) xs ys := by
  have hle := countWhile_le n (min ys.size xs.size) test
  have hleft := h.le_left
  have hright := h.le_right
  refine ⟨by omega, by omega, fun i hi => ?_⟩
  rcases Nat.lt_or_ge i n with hlt | hge
  · exact h.agree i hlt
  · have hlt : i - n < Relaxation.countWhile n (min ys.size xs.size) test := by omega
    have hstep := htest _ (test_of_lt_countWhile hlt)
    rwa [Nat.add_sub_cancel' hge] at hstep

/-- A list with positions from some start on. -/
theorem zipIdx_eq_append {α : Type} {xs : List α} {start : Nat} {done rest : List (α × Nat)} {x : α}
    {i : Nat} (h : xs.zipIdx start = done ++ (x, i) :: rest) :
    xs[done.length]? = some x ∧ i = start + done.length := by
  have hget := congrArg (·[done.length]?) h
  simp only [List.getElem?_zipIdx, List.getElem?_append_right (Nat.le_refl _), Nat.sub_self,
    List.getElem?_cons_zero, Option.map_eq_some_iff, Prod.mk.injEq] at hget
  obtain ⟨y, hy, rfl, rfl⟩ := hget
  exact ⟨hy, rfl⟩

namespace Relaxation

open ConstraintMatrix (Sheds Undisturbed)

variable {σ : Type} [Solver σ] {lp t u : Relaxation σ} {p : Places} {c : ColumnRef} {r : RowRef}

/-- The columns in the solver are the first active columns. -/
def ColumnsLead (lp : Relaxation σ) : Prop :=
  AgreeBelow lp.matrix.solverColumns.size lp.columns lp.matrix.solverColumns

/-- The rows in the solver are the first active rows. -/
def RowsLead (lp : Relaxation σ) : Prop :=
  AgreeBelow lp.matrix.solverRows.size lp.rows lp.matrix.solverRows

theorem Coherent.agree_firstStaleColumn (hlp : lp.Coherent) :
    AgreeBelow lp.firstStaleColumn lp.columns lp.matrix.solverColumns := by
  refine hlp.columnsAgree.extend fun i htest => ?_
  split at htest
  · next held active hheld hactive =>
    simp only [Bool.and_eq_true, beq_iff_eq] at htest
    rw [hheld, hactive, htest.1]
  · cases htest

theorem Coherent.agree_firstStaleRow (hlp : lp.Coherent) :
    AgreeBelow lp.firstStaleRow lp.rows lp.matrix.solverRows := by
  refine hlp.rowsAgree.extend fun i htest => ?_
  split at htest
  · next held active hheld hactive =>
    simp only [Bool.and_eq_true, beq_iff_eq] at htest
    rw [hheld, hactive, htest.1]
  · cases htest

/-- A call of the solver that changes its size. -/
theorem ends_resize {x : SolverM σ Unit} (columns rows : Nat)
    (h : Solver.AllOrNothing σ → Solver.Resizes Solver.SameSize x lp.solver columns rows) :
    Ends (onSolver x) lp
      (fun _ t => ∃ s, t = { lp with solver := s } ∧ (Solver.AllOrNothing σ →
        Solver.nrColumns s = columns ∧ Solver.nrRows s = rows))
      fun _ t => Quiet lp t := by
  rw [ends_onSolver]
  by_cases hs : Solver.AllOrNothing σ
  · exact (h hs).mono (fun _ s hsize => ⟨s, rfl, fun _ => hsize⟩)
      fun _ s hsize => ⟨⟨.refl _, rfl, rfl, fun _ => hsize⟩, rfl⟩
  · exact (Ends.self x lp.solver).mono (fun _ s _ => ⟨s, rfl, fun h => (hs h).elim⟩)
      fun _ s _ => ⟨⟨.refl _, rfl, rfl, fun h => (hs h).elim⟩, rfl⟩

/-! ## Deletions -/

theorem ends_detachColumns (hsound : t.matrix.Sound) {gone : Array ColumnRef}
    (hgone : ∀ c ∈ gone, t.matrix.Has (.column c)) {E : LpError → Relaxation σ → Prop} :
    Ends (forIn gone PUnit.unit fun c _ => do
        modifyMatrix (·.modifyColumn c Column.detach)
        pure (ForInStep.yield PUnit.unit) : RelaxationM σ PUnit) t
      (fun _ u => Relocates t u (t.matrix.places.detachColumns gone.toList)) E := by
  rw [← Array.forIn_toList]
  refine Ends.forIn_list (fun done u => Relocates t u (t.matrix.places.detachColumns done))
    ?_ fun done c rest u hxs hu => ?_
  · rw [Places.detachColumns_nil]
    exact relocates_refl hsound
  · have hmem : c ∈ gone := Array.mem_toList_iff.mp (by simp [hxs])
    rw [Ends.bind_iff, ends_modifyMatrix, Ends.pure_iff]
    exact ⟨rfl, hu.trans (relocates_matrix (hu.matrix.sound.relocated_detachColumn
      (hu.matrix.has (hgone c hmem)) hu.matrix.places))⟩

theorem ends_detachRows (hsound : t.matrix.Sound) (gone : Array RowRef)
    {E : LpError → Relaxation σ → Prop} :
    Ends (forIn gone PUnit.unit fun r _ => do
        modifyMatrix (·.modifyRow r Row.detach)
        pure (ForInStep.yield PUnit.unit) : RelaxationM σ PUnit) t
      (fun _ u => Relocates t u (t.matrix.places.detachRows gone.toList)) E := by
  rw [← Array.forIn_toList]
  refine Ends.forIn_list (fun done u => Relocates t u (t.matrix.places.detachRows done))
    ?_ fun done r rest u _ hu => ?_
  · rw [Places.detachRows_nil]
    exact relocates_refl hsound
  · rw [Ends.bind_iff, ends_modifyMatrix, Ends.pure_iff]
    exact ⟨rfl, hu.trans (relocates_matrix
      (hu.matrix.sound.relocated_detachRow hu.matrix.places))⟩

theorem ends_syncDeletedColumns (hlp : lp.Coherent) :
    Ends syncDeletedColumns lp (fun _ t => Carried Undisturbed lp t ∧ ColumnsLead t)
      fun _ t => Carried Undisturbed lp t := by
  have hagree := hlp.agree_firstStaleColumn
  have hsize : (lp.matrix.solverColumns.extract 0 lp.firstStaleColumn).size =
      lp.firstStaleColumn := by
    have hle := hagree.le_right
    simp only [Array.size_extract]
    omega
  rw [syncDeletedColumns, Ends.bind_iff, Ends.get_iff, Ends.ite_iff]
  refine ⟨fun hlt => ?_, fun hge => ?_⟩
  · rw [Ends.bind_iff]
    refine (ends_resize lp.firstStaleColumn (Solver.nrRows lp.solver)
      fun hs => ?_).mono (fun _ t ht => ?_) fun _ t ht => ht.carries hlp
    · have hcount := (hlp.counts hs).1
      have hdelete := hs.deleteColumns lp.solver
        (show lp.firstStaleColumn ≤ lp.matrix.solverColumns.size - 1 by omega) (by omega)
      rwa [show Solver.nrColumns lp.solver - (lp.matrix.solverColumns.size - 1 + 1 -
        lp.firstStaleColumn) = lp.firstStaleColumn by omega] at hdelete
    obtain ⟨s, rfl, hcounts⟩ := ht
    rw [Ends.bind_iff, ends_modifyMatrix, Ends.bind_iff]
    refine (ends_detachColumns ?_ fun c hc => ?_).mono_ok fun _ u hu => ?_
    · exact ConstraintMatrix.Sound.congr (m := lp.matrix) rfl hlp.sound
    · obtain ⟨i, _, hi⟩ := Array.mem_extract_iff_getElem.mp hc
      exact ConstraintMatrix.has_of_solverColumn ((hlp.placed.solverColumns c trivial _).mpr
        (Array.getElem?_eq_some_iff.mpr ⟨_, hi⟩))
    simp only [markUnsolved, Ends.bind_iff, Ends.modify_iff, ends_modifyMatrix]
    refine ⟨carried_of_placed (ConstraintMatrix.Sound.congr (m := u.matrix) rfl hu.matrix.sound)
      ⟨hu.matrix.undisturbed.live, hu.matrix.undisturbed.amount,
        hu.matrix.undisturbed.linked⟩ hu.matrix.places ?_ ?_ ?_ ?_, ?_⟩
    · rw [show u.columns = lp.columns from hu.columns, show u.rows = lp.rows from hu.rows]
      exact hlp.placed.detachColumns lp.firstStaleColumn
    · rw [show u.columns = lp.columns from hu.columns]
      exact hagree.truncate_right
    · rw [show u.rows = lp.rows from hu.rows]
      exact hu.matrix.firstChangedRow ▸ hlp.rowsAgree
    · intro hs
      rw [show u.solver = s from hu.solver]
      exact ⟨(hcounts hs).1.trans hsize.symm, (hcounts hs).2.trans (hlp.counts hs).2⟩
    · rw [ColumnsLead]
      have hlist : u.matrix.solverColumns =
        lp.matrix.solverColumns.extract 0 lp.firstStaleColumn :=
          congrArg Places.solverColumns hu.matrix.places
      simp only [hlist, hsize, show u.columns = lp.columns from hu.columns]
      exact hagree.truncate_right
  · rw [ends_modifyMatrix]
    have hheld : lp.firstStaleColumn = lp.matrix.solverColumns.size :=
      Nat.le_antisymm hagree.le_right (Nat.not_lt.mp hge)
    refine ⟨carried_of_placed (ConstraintMatrix.Sound.congr (m := lp.matrix) rfl hlp.sound)
      ⟨id, fun _ => rfl, fun _ => rfl⟩ rfl hlp.placed hagree hlp.rowsAgree hlp.counts, ?_⟩
    rw [ColumnsLead]
    exact hheld ▸ hagree

/-- The columns are not concerned when rows are deleted. -/
theorem ends_syncDeletedRows (hlp : lp.Coherent) :
    Ends syncDeletedRows lp
      (fun _ t => Carried Undisturbed lp t ∧ RowsLead t ∧ (ColumnsLead lp → ColumnsLead t))
      fun _ t => Carried Undisturbed lp t := by
  have hagree := hlp.agree_firstStaleRow
  have hsize : (lp.matrix.solverRows.extract 0 lp.firstStaleRow).size = lp.firstStaleRow := by
    have hle := hagree.le_right
    simp only [Array.size_extract]
    omega
  rw [syncDeletedRows, Ends.bind_iff, Ends.get_iff, Ends.ite_iff]
  refine ⟨fun hlt => ?_, fun hge => ?_⟩
  · rw [Ends.bind_iff]
    refine (ends_resize (Solver.nrColumns lp.solver) lp.firstStaleRow
      fun hs => ?_).mono (fun _ t ht => ?_) fun _ t ht => ht.carries hlp
    · have hcount := (hlp.counts hs).2
      have hdelete := hs.deleteRows lp.solver
        (show lp.firstStaleRow ≤ lp.matrix.solverRows.size - 1 by omega) (by omega)
      rwa [show Solver.nrRows lp.solver - (lp.matrix.solverRows.size - 1 + 1 -
        lp.firstStaleRow) = lp.firstStaleRow by omega] at hdelete
    obtain ⟨s, rfl, hcounts⟩ := ht
    rw [Ends.bind_iff, ends_modifyMatrix, Ends.bind_iff]
    refine (ends_detachRows ?_ _).mono_ok fun _ u hu => ?_
    · exact ConstraintMatrix.Sound.congr (m := lp.matrix) rfl hlp.sound
    simp only [markUnsolved, Ends.bind_iff, Ends.modify_iff, ends_modifyMatrix]
    have hsolverColumns : u.matrix.solverColumns = lp.matrix.solverColumns :=
      congrArg Places.solverColumns hu.matrix.places
    have hsolverRows : u.matrix.solverRows = lp.matrix.solverRows.extract 0 lp.firstStaleRow :=
      congrArg Places.solverRows hu.matrix.places
    refine ⟨carried_of_placed (ConstraintMatrix.Sound.congr (m := u.matrix) rfl hu.matrix.sound)
      ⟨hu.matrix.undisturbed.live, hu.matrix.undisturbed.amount,
        hu.matrix.undisturbed.linked⟩ hu.matrix.places ?_ ?_ ?_ ?_, ?_, ?_⟩
    · rw [show u.columns = lp.columns from hu.columns, show u.rows = lp.rows from hu.rows]
      exact hlp.placed.detachRows lp.firstStaleRow
    · rw [show u.columns = lp.columns from hu.columns]
      exact hu.matrix.firstChangedColumn ▸ hlp.columnsAgree
    · rw [show u.rows = lp.rows from hu.rows]
      exact hagree.truncate_right
    · intro hs
      rw [show u.solver = s from hu.solver]
      exact ⟨(hcounts hs).1.trans (hlp.counts hs).1, (hcounts hs).2.trans hsize.symm⟩
    · rw [RowsLead]
      simp only [hsolverRows, hsize, show u.rows = lp.rows from hu.rows]
      exact hagree.truncate_right
    · intro hlead
      rw [ColumnsLead]
      simp only [hsolverColumns, show u.columns = lp.columns from hu.columns]
      exact hlead
  · rw [ends_modifyMatrix]
    have hheld : lp.firstStaleRow = lp.matrix.solverRows.size :=
      Nat.le_antisymm hagree.le_right (Nat.not_lt.mp hge)
    refine ⟨carried_of_placed (ConstraintMatrix.Sound.congr (m := lp.matrix) rfl hlp.sound)
      ⟨id, fun _ => rfl, fun _ => rfl⟩ rfl hlp.placed hlp.columnsAgree hagree hlp.counts, ?_, id⟩
    rw [RowsLead]
    exact hheld ▸ hagree

/-! ## Changes -/

theorem quiet_syncChangedColumns : Along Quiet (syncChangedColumns : RelaxationM σ Unit) := by
  refine .get fun lp => ?_
  have htold : Along Quiet (do
      for c in lp.changedColumns do
        modifyMatrix (·.modifyColumn c fun column => { column with sent := column.spec })
      modify ({ · with changedColumns := #[] }) : RelaxationM σ Unit) := by
    refine .bind (.forIn_array (fun c _ => ?_) _) fun _ =>
      .modify fun _ => quiet_of_eq rfl rfl rfl rfl
    exact .bind (quiet_modifyColumn c (fun _ => rfl) fun _ => rfl) fun _ => .pure
  have hbounds (columns : Array Nat) (lower upper : Array Extended) :
      Along Quiet (onSolver (Solver.changeBounds columns lower upper) : RelaxationM σ Unit) :=
    quiet_onSolver fun hs => Solver.along_of_resizes fun s => hs.changeBounds s columns lower upper
  have hcosts (columns : Array Nat) (values : Array Extended) :
      Along Quiet (onSolver (Solver.changeObjective columns values) : RelaxationM σ Unit) :=
    quiet_onSolver fun hs => Solver.along_of_resizes fun s => hs.changeObjective s columns values
  refine .ite (.bind (hcosts _ _) fun _ => .bind quiet_markUnsolved fun _ => ?_) ?_
  · exact .ite (.bind (hbounds _ _ _) fun _ => .bind quiet_markUnsolved fun _ => htold) htold
  · exact .ite (.bind (hbounds _ _ _) fun _ => .bind quiet_markUnsolved fun _ => htold) htold

theorem quiet_syncChangedRows : Along Quiet (syncChangedRows : RelaxationM σ Unit) := by
  refine .get fun lp => ?_
  have htold : Along Quiet (do
      for r in lp.changedRows do
        modifyMatrix (·.modifyRow r fun row => { row with sent := row.spec })
      modify ({ · with changedRows := #[] }) : RelaxationM σ Unit) := by
    refine .bind (.forIn_array (fun r _ => ?_) _) fun _ =>
      .modify fun _ => quiet_of_eq rfl rfl rfl rfl
    exact .bind (quiet_modifyRow r (fun _ => rfl) fun _ => rfl) fun _ => .pure
  have hsides (rows : Array Nat) (lhs rhs : Array Extended) :
      Along Quiet (onSolver (Solver.changeSides rows lhs rhs) : RelaxationM σ Unit) :=
    quiet_onSolver fun hs => Solver.along_of_resizes fun s => hs.changeSides s rows lhs rhs
  exact .ite (.bind (hsides _ _ _) fun _ => .bind quiet_markUnsolved fun _ => htold) htold

/-- The lines in the solver are still the first active ones if no line was moved. -/
theorem Unmoved.columnsLead (h : Unmoved lp t) (hlead : ColumnsLead lp) : ColumnsLead t := by
  rw [ColumnsLead, h.stays.solverColumns, h.columns]
  exact hlead

theorem Unmoved.rowsLead (h : Unmoved lp t) (hlead : RowsLead lp) : RowsLead t := by
  rw [RowsLead, h.stays.solverRows, h.rows]
  exact hlead

/-! ## Additions -/

/-- A column is linked before it is handed to the solver. -/
theorem ends_batchColumn (hlp : lp.Coherent) (batch : ColumnBatch) (c : ColumnRef)
    {E : LpError → Relaxation σ → Prop} :
    Ends (batchColumn batch c) lp
      (fun batch' t => Unmoved lp t ∧ Carried Sheds lp t ∧ batch'.size = batch.size + 1) E := by
  rw [batchColumn, Ends.bind_iff, ends_onMatrix]
  refine (ConstraintMatrix.ends_linkColumn hlp.sound c).mono_ok fun _ m hm => ?_
  rw [Ends.bind_iff, Ends.get_iff, Ends.pure_iff]
  have hunmoved : Unmoved lp { lp with matrix := m } :=
    ⟨.of_entries hm.1.without, rfl, rfl, fun _ => refl _⟩
  exact ⟨hunmoved, ⟨hunmoved.coherent hlp hm.1.sound, hm.1.sheds hlp.sound⟩, by
    simp [ColumnBatch.size]⟩

theorem ends_batchRow (hlp : lp.Coherent) (batch : RowBatch) (hr : r ∈ lp.rows)
    {E : LpError → Relaxation σ → Prop} :
    Ends (batchRow batch r) lp
      (fun batch' t => Unmoved lp t ∧ Carried Sheds lp t ∧ batch'.size = batch.size + 1) E := by
  have hactive : lp.matrix.grid.isActive (.row r) = true := by
    rw [ConstraintMatrix.isActive_row_places]
    exact hlp.placed.rows.isSome_of_mem trivial hr
  obtain ⟨place, hplace⟩ :=
    Option.isSome_iff_exists.mp (Places.isSome_row_of_mem hlp.placed.rows hr)
  obtain ⟨row, hrow, -⟩ := exists_row_of_places hplace
  rw [batchRow, Ends.bind_iff, ends_onMatrix]
  refine (ConstraintMatrix.ends_linkRow hlp.sound (hlp.sound.tidy.inOrder hactive)
    hrow).mono_ok fun _ m hm => ?_
  have hunmoved : Unmoved lp { lp with matrix := m } :=
    ⟨.of_entries hm.1.without, rfl, rfl, fun _ => refl _⟩
  obtain ⟨row', hrow'⟩ := hunmoved.stays.exists_row hrow
  rw [Ends.bind_iff, Ends.get_iff, Ends.bind_iff, ends_getRow hrow', Ends.pure_iff]
  exact ⟨hunmoved, ⟨hunmoved.coherent hlp hm.1.sound, hm.1.sheds hlp.sound⟩, by
    simp [RowBatch.size]⟩

/-- Every column adds one to the size of the batch. -/
theorem ends_batchColumns (hlp : lp.Coherent) (columns : List ColumnRef)
    {E : LpError → Relaxation σ → Prop} :
    Ends (columns.foldlM batchColumn .empty) lp
      (fun batch t => Unmoved lp t ∧ Carried Sheds lp t ∧ batch.size = columns.length) E := by
  refine Ends.foldlM_list (fun done (batch : ColumnBatch) t =>
    Unmoved lp t ∧ Carried Sheds lp t ∧ batch.size = done.length) ⟨refl lp, hlp.carried, rfl⟩ ?_
  rintro done c rest batch t - ⟨hunmoved, hcarried, hsize⟩
  refine (ends_batchColumn hcarried.coherent batch c).mono_ok fun batch' u hu => ?_
  exact ⟨IsTrans.trans _ _ _ hunmoved hu.1, hcarried.trans hu.2.1, by simp [hu.2.2, hsize]⟩

theorem ends_batchRows (hlp : lp.Coherent) {rows : List RowRef} (hrows : ∀ r ∈ rows, r ∈ lp.rows)
    {E : LpError → Relaxation σ → Prop} :
    Ends (rows.foldlM batchRow .empty) lp
      (fun batch t => Unmoved lp t ∧ Carried Sheds lp t ∧ batch.size = rows.length) E := by
  refine Ends.foldlM_list (fun done (batch : RowBatch) t =>
    Unmoved lp t ∧ Carried Sheds lp t ∧ batch.size = done.length) ⟨refl lp, hlp.carried, rfl⟩ ?_
  rintro done r rest batch t hxs ⟨hunmoved, hcarried, hsize⟩
  have hmem : r ∈ t.rows := hunmoved.rows ▸ hrows r (by simp [hxs])
  refine (ends_batchRow hcarried.coherent batch hmem).mono_ok fun batch' u hu => ?_
  exact ⟨IsTrans.trans _ _ _ hunmoved hu.1, hcarried.trans hu.2.1, by simp [hu.2.2, hsize]⟩

/-- What is in the end of a list is in the list, behind the start of that end. -/
theorem getElem?_extract_end {κ : Type} {xs : Array κ} {start k : Nat} {x : κ}
    (h : (xs.extract start xs.size).toList[k]? = some x) : xs[start + k]? = some x := by
  rw [Array.getElem?_toList, Array.getElem?_extract] at h
  split at h
  · exact h
  · cases h

/-- Some of the active columns that the solver did not have are attached, in their order. -/
structure AttachedColumns (t u : Relaxation σ) (count : Nat) (p : Places) : Prop where
  relocates : Relocates t u p
  placed : Placed p t.columns t.rows
  agree : AgreeBelow p.solverColumns.size t.columns p.solverColumns
  size : p.solverColumns.size = t.matrix.solverColumns.size + count
  rows : p.solverRows = t.matrix.solverRows

/-- Some of the active rows that the solver did not have are attached, in their order. -/
structure AttachedRows (t u : Relaxation σ) (count : Nat) (p : Places) : Prop where
  relocates : Relocates t u p
  placed : Placed p t.columns t.rows
  agree : AgreeBelow p.solverRows.size t.rows p.solverRows
  size : p.solverRows.size = t.matrix.solverRows.size + count
  columns : p.solverColumns = t.matrix.solverColumns

theorem ends_attachColumns (ht : t.matrix.Sound) (hplaced : Placed t.matrix.places t.columns t.rows)
    (hlead : ColumnsLead t) {E : LpError → Relaxation σ → Prop} :
    Ends (forIn ((t.columns.extract t.matrix.solverColumns.size t.columns.size).toList.zipIdx
        t.matrix.solverColumns.size) PUnit.unit fun x _ => match x with
          | (c, position) => do
            modifyMatrix fun m =>
              { m.modifyColumn c (·.attach position) with solverColumns := m.solverColumns.push c }
            pure (ForInStep.yield PUnit.unit) : RelaxationM σ PUnit) t
      (fun _ u => ∃ p, AttachedColumns t u (t.columns.size - t.matrix.solverColumns.size) p) E := by
  refine (Ends.forIn_list (fun done u => ∃ p, AttachedColumns t u done.length p)
    ⟨_, relocates_refl ht, hplaced, hlead, rfl, rfl⟩ ?_).mono_ok fun _ u hu => ?_
  · rintro done ⟨c, position⟩ rest u hxs ⟨p, hu⟩
    obtain ⟨hget, rfl⟩ := zipIdx_eq_append hxs
    have hnext : t.columns[p.solverColumns.size]? = some c :=
      hu.size ▸ getElem?_extract_end hget
    have hc : t.matrix.Has (.column c) := ConstraintMatrix.has_of_activeColumn
      ((hplaced.columns c trivial _).mpr hnext)
    rw [Ends.bind_iff, ends_modifyMatrix, Ends.pure_iff]
    have hsize : u.matrix.solverColumns.size = t.matrix.solverColumns.size + done.length := by
      rw [← hu.size, ← hu.relocates.matrix.places]
      rfl
    have hattached := hu.relocates.matrix.sound.relocated_attachColumn (hu.relocates.matrix.has hc)
    rw [ConstraintMatrix.withAttachedColumn, hsize, hu.relocates.matrix.places] at hattached
    refine ⟨rfl, p.attachColumn c, hu.relocates.trans (relocates_matrix hattached),
      hu.placed.attachColumn hu.agree hnext, hu.agree.push_right hnext, ?_, hu.rows⟩
    simp [Places.attachColumn, hu.size, Nat.add_assoc]
  · simpa using hu

theorem ends_attachRows (ht : t.matrix.Sound) (hplaced : Placed t.matrix.places t.columns t.rows)
    (hlead : RowsLead t) {E : LpError → Relaxation σ → Prop} :
    Ends (forIn ((t.rows.extract t.matrix.solverRows.size t.rows.size).toList.zipIdx
        t.matrix.solverRows.size) PUnit.unit fun x _ => match x with
          | (r, position) => do
            updateRow r (·.attach position)
            modifyMatrix fun m => { m with solverRows := m.solverRows.push r }
            pure (ForInStep.yield PUnit.unit) : RelaxationM σ PUnit) t
      (fun _ u => ∃ p, AttachedRows t u (t.rows.size - t.matrix.solverRows.size) p) E := by
  refine (Ends.forIn_list (fun done u => ∃ p, AttachedRows t u done.length p)
    ⟨_, relocates_refl ht, hplaced, hlead, rfl, rfl⟩ ?_).mono_ok fun _ u hu => ?_
  · rintro done ⟨r, position⟩ rest u hxs ⟨p, hu⟩
    obtain ⟨hget, rfl⟩ := zipIdx_eq_append hxs
    have hnext : t.rows[p.solverRows.size]? = some r := hu.size ▸ getElem?_extract_end hget
    obtain ⟨place, hplace⟩ := Option.isSome_iff_exists.mp
      (Places.isSome_row_of_mem hu.placed.rows (Array.mem_of_getElem? hnext))
    obtain ⟨row, hrow, -⟩ := exists_row_of_places (hu.relocates.matrix.places ▸ hplace)
    have hknown : r.index < p.nrRows := by
      rw [← hu.relocates.matrix.places]
      by_contra hle
      rw [ConstraintMatrix.row?_of_size_le (Nat.not_lt.mp hle)] at hrow
      cases hrow
    rw [Ends.bind_iff, ends_updateRow hrow, Ends.bind_iff, ends_modifyMatrix, Ends.pure_iff]
    have hsize : u.matrix.solverRows.size = t.matrix.solverRows.size + done.length := by
      rw [← hu.size, ← hu.relocates.matrix.places]
      rfl
    have hattached := hu.relocates.matrix.sound.relocated_attachRow (r := r)
    rw [ConstraintMatrix.withAttachedRow, hsize, hu.relocates.matrix.places] at hattached
    refine ⟨rfl, p.attachRow r, hu.relocates.trans (relocates_matrix hattached),
      hu.placed.attachRow hu.agree hnext hknown, hu.agree.push_right hnext, ?_, hu.columns⟩
    simp [Places.attachRow, hu.size, Nat.add_assoc]
  · simpa using hu

theorem ends_syncAddedColumns (hlp : lp.Coherent) (hlead : ColumnsLead lp) :
    Ends syncAddedColumns lp (fun _ t => Carried Sheds lp t ∧ (RowsLead lp → RowsLead t))
      fun _ t => Carried Sheds lp t := by
  rw [syncAddedColumns, Ends.bind_iff, Ends.get_iff, Ends.ite_iff]
  refine ⟨fun hne => ?_, fun _ => ⟨hlp.carried, id⟩⟩
  rw [Ends.bind_iff]
  refine (ends_batchColumns hlp _).mono_ok fun batch t ⟨hunmoved, hcarried, hsize⟩ => ?_
  have ht := hcarried.coherent
  have hle := hlead.le_left
  rw [Array.length_toList, Array.size_extract, Nat.min_self] at hsize
  rw [← hunmoved.columns, ← hunmoved.stays.solverColumns] at hsize hle ⊢
  rw [Ends.bind_iff]
  refine (ends_resize _ _ fun hs => hs.addColumns t.solver batch).mono (fun _ u hu => ?_)
    fun _ u hu => hcarried.trans (hu.carries ht).sheds
  obtain ⟨s, rfl, hcounts⟩ := hu
  rw [Ends.bind_iff]
  refine (ends_attachColumns (t := { t with solver := s }) ht.sound ht.placed
    (hunmoved.columnsLead hlead)).mono_ok fun _ u hu => ?_
  obtain ⟨p, hu⟩ := hu
  simp only [loseDual, markUnsolved, Ends.bind_iff, Ends.modify_iff, ends_modifyMatrix]
  have hcolumns : u.columns = t.columns := hu.relocates.columns
  have hrows : u.rows = t.rows := hu.relocates.rows
  have hsolverRows : u.matrix.solverRows = t.matrix.solverRows :=
    (congrArg Places.solverRows hu.relocates.matrix.places).trans hu.rows
  have hend : p.solverColumns.size = t.columns.size :=
    hu.size.trans (Nat.add_sub_cancel' hle)
  refine ⟨carried_of_placed (ConstraintMatrix.Sound.congr (m := u.matrix) rfl
    hu.relocates.matrix.sound) ?_ hu.relocates.matrix.places ?_ ?_ ?_ ?_, fun hrowsLead => ?_⟩
  · have hsheds := IsTrans.trans _ _ _ hcarried.matrix hu.relocates.matrix.undisturbed.sheds
    exact ⟨hsheds.live, hsheds.amount, hsheds.linked⟩
  · rw [hcolumns, hrows]
    exact hu.placed
  · rw [hcolumns]
    exact hend ▸ hu.agree
  · rw [hrows, hu.rows]
    exact hu.relocates.matrix.firstChangedRow ▸ ht.rowsAgree
  · intro hs
    rw [show u.solver = s from hu.relocates.solver, (hcounts hs).1, (hcounts hs).2, hu.rows,
      (ht.counts hs).1, (ht.counts hs).2, hu.size, hsize]
    exact ⟨rfl, rfl⟩
  · have hrowsLead := hunmoved.rowsLead hrowsLead
    rw [RowsLead] at hrowsLead ⊢
    simpa only [hsolverRows, hrows] using hrowsLead

theorem ends_syncAddedRows (hlp : lp.Coherent) (hlead : RowsLead lp) :
    Ends syncAddedRows lp (fun _ t => Carried Sheds lp t) fun _ t => Carried Sheds lp t := by
  rw [syncAddedRows, Ends.bind_iff, Ends.get_iff, Ends.ite_iff]
  refine ⟨fun hne => ?_, fun _ => hlp.carried⟩
  rw [Ends.bind_iff]
  refine (ends_batchRows hlp fun r hr => Array.mem_toList_iff.mp
    ((sublist_extract ..).subset hr)).mono_ok fun batch t ⟨hunmoved, hcarried, hsize⟩ => ?_
  have ht := hcarried.coherent
  have hle := hlead.le_left
  rw [Array.length_toList, Array.size_extract, Nat.min_self] at hsize
  rw [← hunmoved.rows, ← hunmoved.stays.solverRows] at hsize hle ⊢
  rw [Ends.bind_iff]
  refine (ends_resize _ _ fun hs => hs.addRows t.solver batch).mono (fun _ u hu => ?_)
    fun _ u hu => hcarried.trans (hu.carries ht).sheds
  obtain ⟨s, rfl, hcounts⟩ := hu
  rw [Ends.bind_iff]
  refine (ends_attachRows (t := { t with solver := s }) ht.sound ht.placed
    (hunmoved.rowsLead hlead)).mono_ok fun _ u hu => ?_
  obtain ⟨p, hu⟩ := hu
  simp only [losePrimal, markUnsolved, Ends.bind_iff, Ends.modify_iff, ends_modifyMatrix]
  have hcolumns : u.columns = t.columns := hu.relocates.columns
  have hrows : u.rows = t.rows := hu.relocates.rows
  have hend : p.solverRows.size = t.rows.size := hu.size.trans (Nat.add_sub_cancel' hle)
  refine carried_of_placed (ConstraintMatrix.Sound.congr (m := u.matrix) rfl
    hu.relocates.matrix.sound) ?_ hu.relocates.matrix.places ?_ ?_ ?_ ?_
  · have hsheds := IsTrans.trans _ _ _ hcarried.matrix hu.relocates.matrix.undisturbed.sheds
    exact ⟨hsheds.live, hsheds.amount, hsheds.linked⟩
  · rw [hcolumns, hrows]
    exact hu.placed
  · rw [hcolumns, hu.columns]
    exact hu.relocates.matrix.firstChangedColumn ▸ ht.columnsAgree
  · rw [hrows]
    exact hend ▸ hu.agree
  · intro hs
    rw [show u.solver = s from hu.relocates.solver, (hcounts hs).1, (hcounts hs).2, hu.columns,
      (ht.counts hs).1, (ht.counts hs).2, hu.size, hsize]
    exact ⟨rfl, rfl⟩

/-! ## All together -/

/-- Bringing the solver up to date goes along a relation if its stages do. -/
theorem Coherent.ends_sync_along {R : Relaxation σ → Relaxation σ → Prop}
    [IsPreorder (Relaxation σ) R] (hlp : lp.Coherent)
    (hdeletedColumns : Along R syncDeletedColumns) (hdeletedRows : Along R syncDeletedRows)
    (hchangedColumns : Along R syncChangedColumns) (hchangedRows : Along R syncChangedRows)
    (haddedColumns : ∀ t : Relaxation σ, t.Coherent →
      Ends syncAddedColumns t (fun _ u => R t u) fun _ u => R t u)
    (haddedRows : ∀ t : Relaxation σ, t.Coherent →
      Ends syncAddedRows t (fun _ u => R t u) fun _ u => R t u)
    (hsynced : ∀ t : Relaxation σ, R t { t with matrix := { t.matrix with synced := true } }) :
    Ends sync lp (fun _ t => Carried Sheds lp t ∧ R lp t) fun _ t => Carried Sheds lp t ∧ R lp t := by
  have htrans {t u : Relaxation σ} (h : Carried Sheds lp t ∧ R lp t)
      (h' : Carried Sheds t u ∧ R t u) : Carried Sheds lp u ∧ R lp u :=
    ⟨h.1.trans h'.1, IsTrans.trans _ _ _ h.2 h'.2⟩
  rw [sync, Ends.bind_iff, Ends.get_iff, Ends.ite_iff]
  refine ⟨fun _ => ?_, fun _ => ⟨hlp.carried, refl lp⟩⟩
  rw [Ends.bind_iff]
  refine ((ends_syncDeletedColumns hlp).and (hdeletedColumns lp)).mono
    (fun _ t₁ ⟨⟨hcarried₁, hcolumns₁⟩, hR₁⟩ => ?_) fun _ _ h => ⟨h.1.sheds, h.2⟩
  have h₁ : Carried Sheds lp t₁ ∧ R lp t₁ := ⟨hcarried₁.sheds, hR₁⟩
  rw [Ends.bind_iff]
  refine ((ends_syncDeletedRows hcarried₁.coherent).and (hdeletedRows t₁)).mono
    (fun _ t₂ ⟨⟨hcarried₂, hrows₂, hcolumns₂⟩, hR₂⟩ => ?_) fun _ _ h => htrans h₁ ⟨h.1.sheds, h.2⟩
  have h₂ := htrans h₁ ⟨hcarried₂.sheds, hR₂⟩
  rw [Ends.bind_iff]
  refine ((quiet_syncChangedColumns t₂).and (hchangedColumns t₂)).mono (fun _ t₃ ⟨hquiet₃, hR₃⟩ => ?_)
    fun _ _ h => htrans h₂ ⟨(h.1.carries hcarried₂.coherent).sheds, h.2⟩
  have h₃ := htrans h₂ ⟨(hquiet₃.carries hcarried₂.coherent).sheds, hR₃⟩
  rw [Ends.bind_iff]
  refine ((quiet_syncChangedRows t₃).and (hchangedRows t₃)).mono (fun _ t₄ ⟨hquiet₄, hR₄⟩ => ?_)
    fun _ _ h => htrans h₃ ⟨(h.1.carries h₃.1.coherent).sheds, h.2⟩
  have h₄ := htrans h₃ ⟨(hquiet₄.carries h₃.1.coherent).sheds, hR₄⟩
  have hunmoved : Unmoved t₂ t₄ := IsTrans.trans _ _ _ hquiet₃.unmoved hquiet₄.unmoved
  rw [Ends.bind_iff]
  refine ((ends_syncAddedColumns h₄.1.coherent (hunmoved.columnsLead (hcolumns₂ hcolumns₁))).and
    (haddedColumns t₄ h₄.1.coherent)).mono (fun _ t₅ ⟨⟨hcarried₅, hrows₅⟩, hR₅⟩ => ?_)
    fun _ _ h => htrans h₄ h
  have h₅ := htrans h₄ ⟨hcarried₅, hR₅⟩
  rw [Ends.bind_iff]
  refine ((ends_syncAddedRows h₅.1.coherent (hrows₅ (hunmoved.rowsLead hrows₂))).and
    (haddedRows t₅ h₅.1.coherent)).mono (fun _ t₆ h₆ => ?_) fun _ _ h => htrans h₅ h
  have hquiet : Quiet t₆ { t₆ with matrix := { t₆.matrix with synced := true } } :=
    ⟨⟨⟨rfl, Nat.le_refl _, Nat.le_refl _⟩, rfl, rfl, fun _ => refl _⟩, rfl⟩
  exact htrans (htrans h₅ h₆) ⟨(hquiet.carries h₆.1.coherent).sheds, hsynced t₆⟩

theorem along_sync : Along (Carries Sheds) (sync : RelaxationM σ Unit) :=
  along_carries fun lp hlp => by
    have hall {α : Type} {x : RelaxationM σ α} : Along (Preserves fun _ => True) x := fun lp =>
      (Ends.self x lp).mono (fun _ _ _ => id) fun _ _ _ => id
    exact (hlp.ends_sync_along hall hall hall hall (fun t _ => hall t) (fun t _ => hall t)
      fun _ => id).mono (fun _ _ h => h.1) fun _ _ h => h.1

end Relaxation

end CertifiedLp
