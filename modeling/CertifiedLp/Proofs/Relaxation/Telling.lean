import Mathlib
import CertifiedLp.Proofs.Matrix.Terms
import CertifiedLp.Proofs.Relaxation.Conveying
import CertifiedLp.Proofs.Solver.Batches

/-!
# Telling the simplex solver

The stages of bringing the simplex solver up to date, one after the other. Each of them leaves the
solver with what it was told according to the matrix, whether it succeeds or not, unless a value was
refused. Lines that are marked are deleted first, and are not marked any more when they are added
again.
-/

namespace CertifiedLp

/-- The solver refused a value. -/
def LpError.isRejection : LpError → Bool
  | .solver e => e.isRejection
  | _ => false

namespace ConstraintMatrix

variable {m : ConstraintMatrix} {c : ColumnRef} {r : RowRef} {row : Row}

/-- A row that was changed is a row that was there. -/
theorem exists_row_modifyRows {rs : List RowRef} {f : Row → Row} {P : Row → Row → Prop}
    (hrefl : ∀ row, P row row) (hf : ∀ row row', P row row' → P row (f row'))
    (h : (m.modifyRows rs f).row? r = some row) : ∃ row₀, m.row? r = some row₀ ∧ P row₀ row :=
  modifyRows_keeps (P := fun row => ∃ row₀, m.row? r = some row₀ ∧ P row₀ row)
    (fun _ ⟨row₀, hrow₀, hP⟩ => ⟨row₀, hrow₀, hf _ _ hP⟩) (fun row h => ⟨row, h, hrefl row⟩) h

end ConstraintMatrix

namespace Relaxation

open ConstraintMatrix (ColumnsUnmarked RowsUnmarked Retells)
open Simplex (Restricts)

variable {lp t : Relaxation Simplex} {c : ColumnRef} {r : RowRef} {row : Row} {i : Nat}

/-! ## Deletions -/

/-- The columns that stay are what they were, and so are the coefficients. -/
theorem retells_dropColumns (hlp : lp.Coherent) (hwatched : lp.matrix.Watched)
    (hlinked : ∀ {c r}, (lp.matrix.row? r).isSome = true →
      (lp.matrix.dropColumns lp.firstStaleColumn).linked c r = lp.matrix.linked c r) :
    Retells lp.matrix (lp.matrix.dropColumns lp.firstStaleColumn) where
  column {c} hc := by
    obtain ⟨i, hi⟩ := Array.mem_iff_getElem?.mp hc
    obtain ⟨hlt, hget⟩ := ConstraintMatrix.getElem?_of_prefix rfl hi
    exact ⟨ConstraintMatrix.modifyColumns_keeps (P := (·.sent = (lp.matrix.column c).sent))
      (fun _ h => h) rfl, fun _ => unmarked_of_lt_firstStaleColumn hlp hwatched hget hlt⟩
  row _ hrow := ⟨_, hrow, rfl, id⟩
  linked _ _ hrow _ _ := hlinked (congrArg Option.isSome hrow)

theorem retells_dropRows (hlp : lp.Coherent) (hwatched : lp.matrix.Watched)
    (hlinked : ∀ {c r}, ((lp.matrix.dropRows lp.firstStaleRow).row? r).isSome = true →
      (lp.matrix.dropRows lp.firstStaleRow).linked c r = lp.matrix.linked c r) :
    Retells lp.matrix (lp.matrix.dropRows lp.firstStaleRow) where
  column _ := ⟨rfl, id⟩
  row {r row'} hr hrow' := by
    obtain ⟨i, hi⟩ := Array.mem_iff_getElem?.mp hr
    obtain ⟨hlt, hget⟩ := ConstraintMatrix.getElem?_of_prefix rfl hi
    obtain ⟨row, hrow, hsent⟩ := ConstraintMatrix.exists_row_modifyRows (f := Row.detach)
      (P := fun row row' => row'.sent = row.sent) (fun _ => rfl) (fun _ _ h => h) hrow'
    exact ⟨row, hrow, hsent, fun _ => unmarked_of_lt_firstStaleRow hlp hwatched hrow hget hlt⟩
  linked _ _ hrow' _ _ := hlinked (congrArg Option.isSome hrow')

/-- The solver holds what it was told. -/
theorem ends_tellDeletedColumns (hlp : lp.Coherent) (hwatched : lp.matrix.Watched)
    (h : lp.matrix.Conveyed lp.solver) :
    Ends syncDeletedColumns lp (fun _ t => t.matrix.Conveyed t.solver) fun _ _ => False := by
  have hagree := hlp.agree_firstStaleColumn
  refine ((ends_syncDeletedColumns hlp).and (ends_syncDeletedColumns_exactly lp)).mono ?_ ?_
  · rintro _ _ ⟨⟨hcarried, -⟩, s, flags, status, hcalled, rfl⟩
    have hrestricts : Restricts lp.solver s lp.firstStaleColumn lp.solver.nrRows := by
      by_cases hstale : lp.HasStaleColumns
      · have hcall := hcalled.1 hstale
        rw [columnsDeletion, ← h.nrColumns] at hcall
        exact (Simplex.ends_deleteColumns_tail h.rectangular
          (h.nrColumns ▸ hstale : lp.firstStaleColumn < lp.solver.nrColumns)).of_ok hcall
      · have hend : lp.firstStaleColumn = lp.solver.nrColumns :=
          (Nat.le_antisymm hagree.le_right (Nat.not_lt.mp hstale)).trans h.nrColumns.symm
        rw [hcalled.2 hstale, hend]
        exact h.rectangular.restricts
    have hretells : Retells lp.matrix (lp.matrix.dropColumns lp.firstStaleColumn) :=
      retells_dropColumns hlp hwatched fun hr => hcarried.matrix.linked hr
    refine h.restrict hretells hrestricts hagree.le_right h.nrRows.le rfl ?_
    rw [h.nrRows, Array.extract_size]
    rfl
  · rintro e _ ⟨-, s, ⟨hstale, e', -, hrun⟩, -⟩
    rw [columnsDeletion, ← h.nrColumns] at hrun
    exact (Simplex.ends_deleteColumns_tail h.rectangular
      (h.nrColumns ▸ hstale : lp.firstStaleColumn < lp.solver.nrColumns)).of_error hrun

theorem ends_tellDeletedRows (hlp : lp.Coherent) (hwatched : lp.matrix.Watched)
    (h : lp.matrix.Conveyed lp.solver) :
    Ends syncDeletedRows lp (fun _ t => t.matrix.Conveyed t.solver) fun _ _ => False := by
  have hagree := hlp.agree_firstStaleRow
  refine ((ends_syncDeletedRows hlp).and (ends_syncDeletedRows_exactly lp)).mono ?_ ?_
  · rintro _ _ ⟨⟨hcarried, -⟩, s, flags, status, hcalled, rfl⟩
    have hrestricts : Restricts lp.solver s lp.solver.nrColumns lp.firstStaleRow := by
      by_cases hstale : lp.HasStaleRows
      · have hcall := hcalled.1 hstale
        rw [rowsDeletion, ← h.nrRows] at hcall
        exact (Simplex.ends_deleteRows_tail h.rectangular
          (h.nrRows ▸ hstale : lp.firstStaleRow < lp.solver.nrRows)).of_ok hcall
      · have hend : lp.firstStaleRow = lp.solver.nrRows :=
          (Nat.le_antisymm hagree.le_right (Nat.not_lt.mp hstale)).trans h.nrRows.symm
        rw [hcalled.2 hstale, hend]
        exact h.rectangular.restricts
    have hretells : Retells lp.matrix (lp.matrix.dropRows lp.firstStaleRow) :=
      retells_dropRows hlp hwatched fun hr => hcarried.matrix.linked hr
    refine h.restrict hretells hrestricts h.nrColumns.le hagree.le_right ?_ rfl
    rw [h.nrColumns, Array.extract_size]
    rfl
  · rintro e _ ⟨-, s, ⟨hstale, e', -, hrun⟩, -⟩
    rw [rowsDeletion, ← h.nrRows] at hrun
    exact (Simplex.ends_deleteRows_tail h.rectangular
      (h.nrRows ▸ hstale : lp.firstStaleRow < lp.solver.nrRows)).of_error hrun

/-! ## Changes -/

/-- The solver holds what it was told, and no line is marked. -/
structure Told (lp : Relaxation Simplex) : Prop where
  conveyed : lp.matrix.Conveyed lp.solver
  columns : lp.matrix.ColumnsUnmarked
  rows : lp.matrix.RowsUnmarked

theorem Told.entry (h : lp.Told) {j : Nat} (hi : lp.matrix.solverColumns[i]? = some c)
    (hj : lp.matrix.solverRows[j]? = some r) (hrow : lp.matrix.row? r = some row) :
    lp.solver.cell? j i = some (lp.matrix.linked c r) :=
  h.conveyed.entry hi hj hrow (h.columns c) (h.rows hrow)

/-- A queued column is the one that the solver has at its position. -/
theorem Coherent.eq_of_mem_queuedColumns (hlp : lp.Coherent)
    (hi : lp.matrix.solverColumns[i]? = some c) {column : Column}
    (h : (i, column) ∈ lp.queuedColumns) : c ∈ lp.changedColumns ∧ column = lp.matrix.column c := by
  obtain ⟨d, hd, hposition, rfl⟩ := mem_queuedColumns.mp h
  have hget := (hlp.solverPosition_column d i).mp hposition
  obtain rfl : c = d := Option.some.inj (hi.symm.trans hget)
  exact ⟨hd, rfl⟩

theorem Coherent.eq_of_mem_queuedRows (hlp : lp.Coherent) (hj : lp.matrix.solverRows[i]? = some r)
    (hrow : lp.matrix.row? r = some row) {row' : Row} (h : (i, row') ∈ lp.queuedRows) :
    r ∈ lp.changedRows ∧ row' = row := by
  obtain ⟨r', hr', hrow', hposition⟩ := mem_queuedRows.mp h
  have hget := (hlp.solverPosition_row hrow' i).mp hposition
  obtain rfl : r = r' := Option.some.inj (hj.symm.trans hget)
  exact ⟨hr', Option.some.inj (hrow'.symm.trans hrow)⟩

/-- The objective coefficients that changed are told. -/
theorem costsTold_of_called {s s' : Simplex}
    (h : Called (!lp.changedCosts.isEmpty) lp.costsChange s s') :
    Simplex.CostsTold lp.changedCosts (fun c => c.spec.objective) s s' := by
  by_cases hempty : lp.changedCosts.isEmpty = true
  · rw [h.2 (by simp [hempty])]
    exact Simplex.costsTold_empty (Array.isEmpty_iff.mp hempty) _ s
  · exact (Simplex.ends_changeObjective_told _ _ s).of_ok (h.1 (by simp [hempty]))

theorem lt_of_mem_changedBounds (hlp : lp.Coherent) {x : Nat × Column} (hx : x ∈ lp.changedBounds) :
    x.1 < lp.matrix.solverColumns.size := by
  obtain ⟨c, -, hposition, -⟩ := mem_queuedColumns.mp (Array.mem_filter.mp hx).1
  exact (Array.getElem?_eq_some_iff.mp ((hlp.solverPosition_column c x.1).mp hposition)).1

/-- The bounds that changed are told, and not refused. -/
theorem ends_boundsChange_told (hlp : lp.Coherent) {s : Simplex}
    (hsize : s.nrColumns = lp.matrix.solverColumns.size) :
    Ends lp.boundsChange s (fun _ t => Simplex.BoundsTold lp.changedBounds
      (fun c => Simplex.toBounds c.spec.bounds.lower c.spec.bounds.upper) s t) fun _ _ => False := by
  have hends := Simplex.ends_changeBounds_told (s := s) lp.changedBounds
    (fun c => Solver.encode lp.solver c.spec.bounds.lower)
    (fun c => Solver.encode lp.solver c.spec.bounds.upper)
    fun x hx => hsize ▸ lt_of_mem_changedBounds hlp hx
  simp only [Simplex.toBounds_encode] at hends
  exact hends

theorem boundsTold_of_called (hlp : lp.Coherent) {s s' : Simplex}
    (hsize : s.nrColumns = lp.matrix.solverColumns.size)
    (h : Called (!lp.changedBounds.isEmpty) lp.boundsChange s s') :
    Simplex.BoundsTold lp.changedBounds
      (fun c => Simplex.toBounds c.spec.bounds.lower c.spec.bounds.upper) s s' := by
  by_cases hempty : lp.changedBounds.isEmpty = true
  · rw [h.2 (by simp [hempty])]
    exact Simplex.boundsTold_empty (Array.isEmpty_iff.mp hempty) _ s
  · exact (ends_boundsChange_told hlp hsize).of_ok (h.1 (by simp [hempty]))

/-- The sides that changed are told, or nothing is. -/
theorem ends_sidesChange_told (lp : Relaxation Simplex) (s : Simplex) :
    Ends lp.sidesChange s (fun _ t => Simplex.SidesTold lp.changedSides (fun r =>
      Simplex.toBounds (r.spec.solverSide .lower) (r.spec.solverSide .upper)) s t)
      fun _ t => t = s := by
  have hends := Simplex.ends_changeSides_told lp.changedSides
    (fun r => Solver.encode lp.solver (r.spec.solverSide .lower))
    (fun r => Solver.encode lp.solver (r.spec.solverSide .upper)) s
  simp only [Simplex.toBounds_encode] at hends
  exact hends

theorem sidesTold_of_called {s s' : Simplex}
    (h : Called (!lp.changedSides.isEmpty) lp.sidesChange s s') :
    Simplex.SidesTold lp.changedSides (fun r =>
      Simplex.toBounds (r.spec.solverSide .lower) (r.spec.solverSide .upper)) s s' := by
  by_cases hempty : lp.changedSides.isEmpty = true
  · rw [h.2 (by simp [hempty])]
    exact Simplex.sidesTold_empty (Array.isEmpty_iff.mp hempty) _ s
  · exact (ends_sidesChange_told lp s).of_ok (h.1 (by simp [hempty]))

/-- After the changes, the solver has the objective coefficient that a column says it was told. -/
theorem cost_noteColumns (hlp : lp.Coherent) (h : lp.Told) {s : Simplex}
    (hs : Simplex.CostsTold lp.changedCosts (fun c => c.spec.objective) lp.solver s)
    (hi : lp.matrix.solverColumns[i]? = some c) :
    s.cost? i = Simplex.finiteEnd? (if c ∈ lp.changedColumns then (lp.matrix.column c).spec.objective
      else (lp.matrix.column c).sent.objective) := by
  have hlt : i < lp.solver.nrColumns :=
    h.conveyed.nrColumns ▸ (Array.getElem?_eq_some_iff.mp hi).1
  by_cases hnew : c ∈ lp.changedColumns ∧
      (lp.matrix.column c).spec.objective ≠ (lp.matrix.column c).sent.objective
  · have hmem : (i, lp.matrix.column c) ∈ lp.changedCosts := by
      rw [changedCosts, Array.mem_filter]
      exact ⟨mem_queuedColumns.mpr ⟨c, hnew.1, (hlp.solverPosition_column c i).mpr hi, rfl⟩,
        by simpa using hnew.2⟩
    rw [if_pos hnew.1]
    refine hs.told hlt hmem fun column hcolumn => ?_
    rw [(hlp.eq_of_mem_queuedColumns hi (Array.mem_filter.mp hcolumn).1).2]
  · rw [hs.others, h.conveyed.cost hi]
    · split
      · next hc => rw [not_not.mp fun hne => hnew ⟨hc, hne⟩]
      · rfl
    · rintro ⟨k, column⟩ hx rfl
      obtain ⟨hqueued, hne⟩ := Array.mem_filter.mp hx
      obtain ⟨hc, rfl⟩ := hlp.eq_of_mem_queuedColumns hi hqueued
      exact hnew ⟨hc, by simpa using hne⟩

theorem bounds_noteColumns (hlp : lp.Coherent) (h : lp.Told) {s : Simplex}
    (hsize : s.nrColumns = lp.solver.nrColumns) (hbounds : ∀ i, s.bounds? i = lp.solver.bounds? i)
    {s' : Simplex} (hs : Simplex.BoundsTold lp.changedBounds
      (fun c => Simplex.toBounds c.spec.bounds.lower c.spec.bounds.upper) s s')
    (hi : lp.matrix.solverColumns[i]? = some c) :
    s'.bounds? i = some (if c ∈ lp.changedColumns then
        Simplex.toBounds (lp.matrix.column c).spec.bounds.lower (lp.matrix.column c).spec.bounds.upper
      else
        Simplex.toBounds (lp.matrix.column c).sent.bounds.lower
          (lp.matrix.column c).sent.bounds.upper) := by
  have hlt : i < s.nrColumns :=
    hsize ▸ h.conveyed.nrColumns ▸ (Array.getElem?_eq_some_iff.mp hi).1
  by_cases hnew : c ∈ lp.changedColumns ∧
      (lp.matrix.column c).spec.bounds ≠ (lp.matrix.column c).sent.bounds
  · have hmem : (i, lp.matrix.column c) ∈ lp.changedBounds := by
      rw [changedBounds, Array.mem_filter]
      exact ⟨mem_queuedColumns.mpr ⟨c, hnew.1, (hlp.solverPosition_column c i).mpr hi, rfl⟩,
        by simpa using hnew.2⟩
    rw [if_pos hnew.1]
    refine hs.told hlt hmem fun column hcolumn => ?_
    rw [(hlp.eq_of_mem_queuedColumns hi (Array.mem_filter.mp hcolumn).1).2]
  · rw [hs.others, hbounds, h.conveyed.bounds hi]
    · split
      · next hc => rw [not_not.mp fun hne => hnew ⟨hc, hne⟩]
      · rfl
    · rintro ⟨k, column⟩ hx rfl
      obtain ⟨hqueued, hne⟩ := Array.mem_filter.mp hx
      obtain ⟨hc, rfl⟩ := hlp.eq_of_mem_queuedColumns hi hqueued
      exact hnew ⟨hc, by simpa using hne⟩

theorem sides_noteRows (hlp : lp.Coherent) (h : lp.Told) {s : Simplex}
    (hs : Simplex.SidesTold lp.changedSides (fun r =>
      Simplex.toBounds (r.spec.solverSide .lower) (r.spec.solverSide .upper)) lp.solver s)
    (hi : lp.matrix.solverRows[i]? = some r) (hrow : lp.matrix.row? r = some row) :
    s.sides? i = some (if r ∈ lp.changedRows then
        Simplex.toBounds (row.spec.solverSide .lower) (row.spec.solverSide .upper)
      else Simplex.toBounds (row.sent.solverSide .lower) (row.sent.solverSide .upper)) := by
  have hlt : i < lp.solver.nrRows := h.conveyed.nrRows ▸ (Array.getElem?_eq_some_iff.mp hi).1
  by_cases hnew : r ∈ lp.changedRows ∧ row.spec ≠ row.sent
  · have hmem : (i, row) ∈ lp.changedSides := by
      rw [changedSides, Array.mem_filter]
      exact ⟨mem_queuedRows.mpr ⟨r, hnew.1, hrow, (hlp.solverPosition_row hrow i).mpr hi⟩,
        by simpa using hnew.2⟩
    rw [if_pos hnew.1]
    refine hs.told hlt hmem fun row' hrow' => ?_
    rw [(hlp.eq_of_mem_queuedRows hi hrow (Array.mem_filter.mp hrow').1).2]
  · rw [hs.others, h.conveyed.sides hi hrow]
    · split
      · next hr => rw [not_not.mp fun hne => hnew ⟨hr, hne⟩]
      · rfl
    · rintro ⟨k, row'⟩ hx rfl
      obtain ⟨hqueued, hne⟩ := Array.mem_filter.mp hx
      obtain ⟨hr, rfl⟩ := hlp.eq_of_mem_queuedRows hi hrow hqueued
      exact hnew ⟨hr, by simpa using hne⟩

/-- A column in the solver was told what it says if it was queued, and what it was told otherwise. -/
theorem sent_noteColumns {cs : List ColumnRef} (hc : lp.matrix.Has (.column c)) :
    ((lp.matrix.modifyColumns cs noteColumn).column c).sent =
      if c ∈ cs then (lp.matrix.column c).spec else (lp.matrix.column c).sent := by
  split
  · next hmem =>
    have hspec : ((lp.matrix.modifyColumns cs noteColumn).column c).spec = (lp.matrix.column c).spec :=
      ConstraintMatrix.modifyColumns_keeps (P := (·.spec = _)) (fun _ h => h) rfl
    rw [← hspec]
    exact ConstraintMatrix.modifyColumns_establishes (P := fun column => column.sent = column.spec)
      (fun _ => rfl) hmem hc
  · next hmem => rw [ConstraintMatrix.column_modifyColumns_of_notMem hmem]

theorem exists_row_noteRows {rs : List RowRef} {row' : Row}
    (h : (lp.matrix.modifyRows rs noteRow).row? r = some row') :
    ∃ row, lp.matrix.row? r = some row ∧
      row'.sent = if r ∈ rs then row.spec else row.sent := by
  split
  · next hmem =>
    obtain ⟨row, hrow, hspec⟩ := ConstraintMatrix.exists_row_modifyRows (f := noteRow)
      (P := fun row row' => row'.spec = row.spec) (fun _ => rfl) (fun _ _ h => h) h
    refine ⟨row, hrow, ?_⟩
    rw [← hspec]
    exact ConstraintMatrix.modifyRows_establishes (P := fun row => row.sent = row.spec)
      (fun _ => rfl) hmem h
  · next hmem =>
    exact ⟨row', (ConstraintMatrix.row?_modifyRows_of_notMem hmem _).symm.trans h, rfl⟩

/-- The solver is told what the queued columns say. -/
theorem ends_tellChangedColumns (hlp : lp.Coherent) (h : lp.Told) :
    Ends syncChangedColumns lp (fun _ t => t.Told) fun e t => e.isRejection = true ∨ t.Told := by
  refine ((quiet_syncChangedColumns lp).and (ends_syncChangedColumns_exactly lp)).mono ?_ ?_
  · rintro _ _ ⟨hquiet, s, s', flags, status, hcosts, hbounds, rfl⟩
    have hcosts := costsTold_of_called hcosts
    have hsize := hcosts.nrColumns.trans h.conveyed.nrColumns
    have hbounds := boundsTold_of_called hlp hsize hbounds
    have hrows : s'.rows = lp.solver.rows := hbounds.rows.trans hcosts.rows
    have hnrColumns : s'.nrColumns = lp.solver.nrColumns := hbounds.nrColumns.trans hcosts.nrColumns
    have hlinked (c : ColumnRef) (r : RowRef) :
        lp.noteColumns.matrix.linked c r = lp.matrix.linked c r :=
      congrFun (congrFun (ConstraintMatrix.linked_of_shape hquiet.shape) c) r
    have hsent {i : Nat} {c : ColumnRef} (hi : lp.matrix.solverColumns[i]? = some c) :
        (lp.noteColumns.matrix.column c).sent =
          if c ∈ lp.changedColumns then (lp.matrix.column c).spec else (lp.matrix.column c).sent := by
      refine (sent_noteColumns (ConstraintMatrix.has_of_solverColumn
        ((hlp.solverPosition_column c i).mpr hi))).trans ?_
      simp only [Array.mem_toList_iff]
    refine ⟨⟨h.conveyed.rectangular.congr hnrColumns fun j => by rw [hrows],
      hnrColumns.trans h.conveyed.nrColumns, ?_, fun {i c} hi => ?_, fun {i c} hi => ?_,
      fun {j r row} hj hrow => ?_, fun {i j c r row} hi hj hrow _ _ => ?_⟩, fun c => ?_, h.rows⟩
    · exact (congrArg Array.size hrows).trans h.conveyed.nrRows
    · refine (hbounds.cost i).trans ((cost_noteColumns hlp h hcosts hi).trans ?_)
      refine congrArg Simplex.finiteEnd? (Eq.trans ?_ (congrArg ColumnSpec.objective (hsent hi)).symm)
      split <;> rfl
    · refine (bounds_noteColumns hlp h hcosts.nrColumns hcosts.bounds hbounds hi).trans ?_
      refine congrArg some (Eq.trans ?_ (congrArg (fun spec : ColumnSpec =>
        Simplex.toBounds spec.bounds.lower spec.bounds.upper) (hsent hi)).symm)
      split <;> rfl
    · refine Eq.trans ?_ (h.conveyed.sides hj hrow)
      rw [Simplex.sides?, hrows]
      rfl
    · refine Eq.trans ?_ ((h.entry hi hj hrow).trans (congrArg some (hlinked c r).symm))
      exact Simplex.cell?_congr (fun j => by rw [hrows]) j i
    · exact h.columns.modifyColumns (f := noteColumn) (fun _ h => h) c
  · rintro e _ ⟨-, s, s', flags, status, hfailed, rfl⟩
    rcases hfailed with ⟨-, e', rfl, hrun⟩ | ⟨hcalled, hrefused⟩
    · have hends := Simplex.ends_changeObjective_told lp.changedCosts (fun c => c.spec.objective)
        lp.solver
      rcases hends.of_error hrun with hrejected | hsame
      · exact .inl hrejected
      · refine .inr ⟨?_, h.columns, h.rows⟩
        rw [show s' = lp.solver from hsame]
        exact h.conveyed
    · have hsize := (costsTold_of_called hcalled).nrColumns.trans h.conveyed.nrColumns
      obtain ⟨-, e', -, hrun⟩ := hrefused
      exact ((ends_boundsChange_told hlp hsize).of_error hrun).elim

/-- The solver is told what the queued rows say. -/
theorem ends_tellChangedRows (hlp : lp.Coherent) (h : lp.Told) :
    Ends syncChangedRows lp (fun _ t => t.Told) fun _ t => t.Told := by
  refine ((quiet_syncChangedRows lp).and (ends_syncChangedRows_exactly lp)).mono ?_ ?_
  · rintro _ _ ⟨hquiet, s, flags, status, hsides, rfl⟩
    have hsides := sidesTold_of_called hsides
    have hcolumns : s.nrColumns = lp.solver.nrColumns := congrArg Array.size hsides.columns
    have hlinked (c : ColumnRef) (r : RowRef) :
        lp.noteRows.matrix.linked c r = lp.matrix.linked c r :=
      congrFun (congrFun (ConstraintMatrix.linked_of_shape hquiet.shape) c) r
    refine ⟨⟨h.conveyed.rectangular.congr hcolumns hsides.coefficients,
      hcolumns.trans h.conveyed.nrColumns, hsides.nrRows.trans h.conveyed.nrRows, fun {i c} hi => ?_,
      fun {i c} hi => ?_, fun {j r row'} hj hrow' => ?_, fun {i j c r row'} hi hj hrow' _ _ => ?_⟩,
      h.columns, fun {r row'} hrow' => ?_⟩
    · refine Eq.trans ?_ (h.conveyed.cost hi)
      rw [Simplex.cost?, hsides.columns]
      rfl
    · refine Eq.trans ?_ (h.conveyed.bounds hi)
      rw [Simplex.bounds?, hsides.columns]
      rfl
    · obtain ⟨row, hrow, hsent⟩ := exists_row_noteRows hrow'
      simp only [Array.mem_toList_iff] at hsent
      refine (sides_noteRows hlp h hsides hj hrow).trans ?_
      refine congrArg some (Eq.trans ?_ (congrArg (fun spec : RowSpec =>
        Simplex.toBounds (spec.solverSide .lower) (spec.solverSide .upper)) hsent).symm)
      split <;> rfl
    · obtain ⟨row, hrow, -⟩ := exists_row_noteRows hrow'
      refine Eq.trans ?_ ((h.entry hi hj hrow).trans (congrArg some (hlinked c r).symm))
      exact Simplex.cell?_congr hsides.coefficients j i
    · exact ConstraintMatrix.RowsUnmarked.modifyRows h.rows (f := noteRow) (fun _ h => h) hrow'
  · rintro e _ ⟨-, s, ⟨-, e', -, hrun⟩, rfl⟩
    refine ⟨?_, h.columns, h.rows⟩
    rw [show s = lp.solver from (ends_sidesChange_told lp lp.solver).of_error hrun]
    exact h.conveyed

end Relaxation

end CertifiedLp
