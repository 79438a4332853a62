import Mathlib
import CertifiedLp.Proofs.Relaxation.Alike

/-!
# Every stage can be repeated

The stages of bringing the solver up to date are phases: each of them can be taken up again after the
solver refused a call, and to repeat it when it is done changes nothing that counts. Only two stages
leave something behind when they fail. New lines stay linked, and where changed bounds are refused,
the solver has the changed objective coefficients already, and is told them once more.
-/

namespace CertifiedLp

namespace ConstraintMatrix

/-- A change of rows for which it makes no difference how often it is made. -/
theorem row?_modifyRows {f : Row → Row} (hf : ∀ row, f (f row) = f row) (m : ConstraintMatrix)
    (rs : List RowRef) (r : RowRef) :
    (m.modifyRows rs f).row? r = if r ∈ rs then (m.row? r).map f else m.row? r := by
  induction rs using List.reverseRecOn with
  | nil => rfl
  | append_singleton rs s ih =>
    rw [modifyRows_concat, row?_modifyRow, ih]
    by_cases hr : r ∈ rs
    · simp only [hr, List.mem_append, true_or, if_true, Option.map_map]
      split
      · exact congrArg (Option.map · (m.row? r)) (funext hf)
      · rfl
    · simp only [hr, List.mem_append, List.mem_singleton, false_or, if_false, eq_comm]

end ConstraintMatrix

namespace Relaxation

open Solver (Determined HoldSame Transactional)

variable {σ H : Type} [Solver σ] {held : σ → H} {lp t u : Relaxation σ}

/-! ## Deletions -/

theorem pendingRows_congr (hqueue : t.changedRows = lp.changedRows)
    (hrows : ∀ r, (t.matrix.row? r).map Row.hasNews = (lp.matrix.row? r).map Row.hasNews) :
    t.pendingRows = lp.pendingRows := by
  have hany (m : ConstraintMatrix) (r : RowRef) :
      (m.row? r).any Row.hasNews = ((m.row? r).map Row.hasNews).any id := by
    rw [Option.any_map]
    rfl
  simp only [pendingRows, hqueue, hany, hrows]

theorem countWhile_eq_zero {first stop : Nat} (h : stop ≤ first) (test : Nat → Bool) :
    countWhile first stop test = 0 := by
  rw [countWhile, Nat.sub_eq_zero_of_le h]
  rfl

theorem ColumnsTrimmed.firstStaleColumn (h : lp.ColumnsTrimmed) :
    lp.firstStaleColumn = lp.matrix.firstChangedColumn := by
  rw [Relaxation.firstStaleColumn, countWhile_eq_zero ((Nat.min_le_left _ _).trans h.size_le)]
  rfl

theorem RowsTrimmed.firstStaleRow (h : lp.RowsTrimmed) :
    lp.firstStaleRow = lp.matrix.firstChangedRow := by
  rw [Relaxation.firstStaleRow, countWhile_eq_zero ((Nat.min_le_left _ _).trans h.size_le)]
  rfl

theorem phase_trimColumns (h : Transactional held) :
    Phase OfSolver (Alike held) (Alike held) Syncing ColumnsTrimmed syncDeletedColumns := by
  refine phase_of_call HasStaleColumns columnsDeletion id
    (fun lp => { lp with matrix := lp.matrix.dropColumns lp.firstStaleColumn })
    (fun _ => ends_syncDeletedColumns_exactly _) ends_trimColumns (fun _ => h.deleteColumns _ _)
    (fun _ => rfl) (fun _ => rfl) (fun {lp} _ hdone => ?_) (fun {lp t} halike hdone => ?_)
    fun {lp t} hlp ht halike => ?_
  · have hle : lp.matrix.solverColumns.size ≤ lp.firstStaleColumn := by
      rw [hdone.firstStaleColumn]
      exact hdone.size_le
    refine ⟨hle.not_gt, ?_⟩
    change Alike held lp { lp with matrix := lp.matrix.dropColumns lp.firstStaleColumn }
    rw [ConstraintMatrix.dropColumns_of_le hle, hdone.firstStaleColumn]
    exact refl lp
  · obtain ⟨⟨_, _, _, _, _, rfl⟩, -⟩ := halike
    exact ⟨hdone.lead, hdone.size_le, hdone.unmarked⟩
  · have halike : Alike held lp t := halike.elim id id
    obtain ⟨_, _, _, _, rfl⟩ := halike.exists_eq hlp.unsynced ht.unsynced
    exact ⟨Iff.rfl, rfl, halike, ⟨_, _, _, _, _, rfl⟩, halike.solver, halike.pendingRows⟩

theorem phase_trimRows (h : Transactional held) :
    Phase OfSolver (Alike held) (Alike held) (fun lp => lp.Syncing ∧ lp.ColumnsTrimmed) RowsTrimmed
      syncDeletedRows := by
  refine phase_of_call HasStaleRows rowsDeletion id
    (fun lp => { lp with matrix := lp.matrix.dropRows lp.firstStaleRow })
    (fun _ => ends_syncDeletedRows_exactly _)
    (fun hlp => (ends_trimRows hlp.1 hlp.2).mono_ok fun _ _ ht => trimmed_iff.mp ht)
    (fun _ => h.deleteRows _ _) (fun _ => rfl) (fun _ => rfl) (fun {lp} _ hdone => ?_)
    (fun {lp t} halike hdone => ?_) fun {lp t} hlp ht halike => ?_
  · have hle : lp.matrix.solverRows.size ≤ lp.firstStaleRow := by
      rw [hdone.firstStaleRow]
      exact hdone.size_le
    refine ⟨hle.not_gt, ?_⟩
    change Alike held lp { lp with matrix := lp.matrix.dropRows lp.firstStaleRow }
    rw [ConstraintMatrix.dropRows_of_le hle, hdone.firstStaleRow]
    exact refl lp
  · obtain ⟨⟨_, _, _, _, _, rfl⟩, -⟩ := halike
    exact ⟨hdone.lead, hdone.size_le, hdone.unmarked⟩
  · have halike : Alike held lp t := halike.elim id id
    -- what is deleted from the solver says what it said before
    have hpending (lp : Relaxation σ) :
        pendingRows { lp with matrix := lp.matrix.dropRows lp.firstStaleRow } = lp.pendingRows :=
      pendingRows_congr rfl fun r => ConstraintMatrix.map_row?_modifyRows
        (f := Row.detach) (fun _ => rfl) lp.matrix _ r
    have hdropped := (hpending t).trans (halike.pendingRows.trans (hpending lp).symm)
    obtain ⟨_, _, _, _, rfl⟩ := halike.exists_eq hlp.1.unsynced ht.1.unsynced
    exact ⟨Iff.rfl, rfl, halike, ⟨_, _, _, _, _, rfl⟩, halike.solver, hdropped⟩

/-! ## Changed objective coefficients and bounds -/

/-- The changed objective coefficients were accepted already, in the second of two relaxations. -/
def AheadOf (held : σ → H) (lp t : Relaxation σ) : Prop :=
  ∃ s, (!lp.changedCosts.isEmpty) = true ∧ lp.costsChange.run.run lp.solver = (.ok (), s) ∧
    Alike held { lp with solver := s } t

/-- A relaxation in which the changed columns are sent once more, perhaps with objective coefficients
that were accepted already. -/
structure Resending (held : σ → H) (lp t : Relaxation σ) : Prop where
  eq : ∃ solver changedRows flags status, t = { lp with solver, changedRows, flags, status }
  infinity : Solver.infinity t.solver = Solver.infinity lp.solver
  behind : Alike held lp t ∨ AheadOf held lp t

theorem resending_of (h : Transactional held) (hlp : lp.matrix.synced = false)
    (ht : t.matrix.synced = false) (halike : Alike held lp t ∨ AheadOf held lp t) :
    Resending held lp t := by
  refine ⟨?_, ?_, halike⟩
  · rcases halike with halike | ⟨s, -, -, halike⟩
    · exact halike.exists_eq hlp ht
    · have hlp' : ({ lp with solver := s } : Relaxation σ).matrix.synced = false := hlp
      obtain ⟨_, _, _, _, rfl⟩ := halike.exists_eq hlp' ht
      exact ⟨_, _, _, _, rfl⟩
  · rcases halike with halike | ⟨s, -, hrun, halike⟩
    · exact h.infinity halike.solver
    · exact (h.infinity halike.solver).trans (((h.changeObjective _ _).ends lp.solver).of_ok hrun)

/-- Whether the objective coefficients are told for the first or the second time, the solvers hold the
same afterwards. -/
theorem Resending.holdSame (hre : Resending held lp t) (h : Transactional held) {s s' : σ}
    (hs : Called (!lp.changedCosts.isEmpty) lp.costsChange lp.solver s)
    (hs' : Called (!lp.changedCosts.isEmpty) lp.costsChange t.solver s') : HoldSame held s s' := by
  rcases hre.behind with halike | ⟨s₁, hcosts, hrun, halike⟩
  · exact Called.twin (h.changeObjective _ _) halike.solver hs hs'
  · obtain rfl : s = s₁ := congrArg Prod.snd ((hs.1 hcosts).symm.trans hrun)
    exact ((h.changeObjective_again _ _ hrun halike.solver).of_ok (hs'.1 hcosts)).trans
      halike.solver

/-- Where the solver holds what it held before, nothing happened. -/
theorem Resending.behind_of_holdSame (hre : Resending held lp t) {s : σ}
    (hs : HoldSame held t.solver s) (flags : Flags) (status : LpStatus) :
    Alike held lp { t with solver := s, flags, status } ∨
      AheadOf held lp { t with solver := s, flags, status } := by
  have hsame := alike_of_solver hs flags status
  rcases hre.behind with halike | ⟨s₁, hcosts, hrun, halike⟩
  · exact .inl (IsTrans.trans _ _ _ halike hsame)
  · exact .inr ⟨s₁, hcosts, hrun, IsTrans.trans _ _ _ halike hsame⟩

/-- Where the objective coefficients were accepted, they do not have to be told again. -/
theorem Resending.behind_of_called (hre : Resending held lp t) {s s' : σ}
    (hs : Called (!lp.changedCosts.isEmpty) lp.costsChange lp.solver s)
    (hs' : HoldSame held s s') (hcosts : (!lp.changedCosts.isEmpty) = true) (flags : Flags)
    (status : LpStatus) : AheadOf held lp { t with solver := s', flags, status } := by
  refine ⟨s, hcosts, hs.1 hcosts, ?_⟩
  rcases hre.behind with halike | ⟨s₁, -, -, halike⟩
  · exact halike.withSolver hs' ..
  · exact halike.withSolver hs' ..

theorem ends_syncChangedColumns_again (h : Transactional held) (hre : Resending held lp t)
    {lp' : Relaxation σ} (hrun : syncChangedColumns.run.run lp = (.ok (), lp')) :
    Ends syncChangedColumns t (fun _ t' => Alike held lp' t') fun e t' =>
      OfSolver e ∧ (Alike held lp t' ∨ AheadOf held lp t') := by
  obtain ⟨s, s', flags, status, hs, hs', rfl⟩ := (ends_syncChangedColumns_exactly lp).of_ok hrun
  have hcosts : t.changedCosts = lp.changedCosts ∧ t.changedBounds = lp.changedBounds ∧
      t.costsChange = lp.costsChange := by
    obtain ⟨_, _, _, _, rfl⟩ := hre.eq
    exact ⟨rfl, rfl, rfl⟩
  have hbounds : t.boundsChange = lp.boundsChange := by
    have hencode (x : Extended) : Solver.encode t.solver x = Solver.encode lp.solver x := by
      cases x <;> simp only [Solver.encode, hre.infinity]
    simp only [boundsChange, hcosts.2.1, hencode]
  refine (ends_syncChangedColumns_exactly t).mono ?_ ?_
  · rintro _ _ ⟨r, r', flags', status', hr, hr', rfl⟩
    rw [hcosts.1, hcosts.2.2] at hr
    rw [hcosts.2.1, hbounds] at hr'
    have hsame := Called.twin (h.changeBounds _ _ _) (hre.holdSame h hs hr) hs' hr'
    have hpending : t.pendingRows = lp.pendingRows := by
      rcases hre.behind with halike | ⟨_, -, -, halike⟩
      · exact halike.pendingRows
      · exact halike.pendingRows
    obtain ⟨_, _, _, _, rfl⟩ := hre.eq
    exact ⟨⟨_, _, _, _, _, rfl⟩, hsame, hpending⟩
  · rintro e _ ⟨r, r', flags', status', hr, rfl⟩
    rw [hcosts.1, hcosts.2.1, hcosts.2.2, hbounds] at hr
    rcases hr with hr | ⟨hr, hr'⟩
    · exact ⟨hr.ofSolver, hre.behind_of_holdSame (hr.holdSame (h.changeObjective _ _)) ..⟩
    · refine ⟨hr'.ofSolver, ?_⟩
      have hheld := hr'.holdSame (h.changeBounds _ _ _)
      by_cases hnew : (!lp.changedCosts.isEmpty) = true
      · have hsame : HoldSame held s r' := hheld.trans (hre.holdSame h hs hr)
        exact .inr (hre.behind_of_called hs hsame hnew ..)
      · rw [hr.2 hnew] at hheld
        exact hre.behind_of_holdSame hheld ..

theorem noteColumns_of_none (h : lp.changedColumns = #[]) : lp.noteColumns = lp := by
  rw [noteColumns, h]
  exact congrArg (fun changedColumns => { lp with changedColumns }) h.symm

theorem phase_noteColumns (h : Transactional held) :
    Phase OfSolver (Alike held) (Alike held) Trimmed (fun lp => lp.changedColumns = #[])
      syncChangedColumns where
  keeps := ends_noteChangedColumns
  idle {lp} _ hdone := by
    have hqueued : lp.queuedColumns = #[] := by
      rw [queuedColumns, hdone, Array.filterMap_empty]
    have hcosts : ¬ (!lp.changedCosts.isEmpty) = true := by simp [changedCosts, hqueued]
    have hbounds : ¬ (!lp.changedBounds.isEmpty) = true := by simp [changedBounds, hqueued]
    refine (ends_syncChangedColumns_exactly lp).mono ?_ ?_
    · rintro _ _ ⟨s, s', flags, status, hs, hs', rfl⟩
      rw [hs.2 hcosts] at hs'
      rw [hs'.2 hbounds, noteColumns_of_none hdone]
      exact alike_of_solver rfl flags status
    · rintro e _ ⟨s, s', flags, status, hs | ⟨-, hs⟩, -⟩
      · exact hcosts hs.1
      · exact hbounds hs.1
  respects halike hdone := by
    obtain ⟨⟨_, _, _, _, _, rfl⟩, -⟩ := halike
    exact hdone
  resumes := by
    refine ⟨fun lp t => Alike held lp t ∨ AheadOf held lp t, .inl, fun halike h' => ?_,
      fun {lp t lp'} hlp ht halike hrun => ?_⟩
    · rcases halike with halike | ⟨s, hcosts, hrun, halike⟩
      · exact .inl (IsTrans.trans _ _ _ halike h')
      · exact .inr ⟨s, hcosts, hrun, IsTrans.trans _ _ _ halike h'⟩
    · exact ends_syncChangedColumns_again h
        (resending_of h hlp.unsynced ht.unsynced halike) hrun

/-! ## Changed sides -/

theorem rowsNoted_iff : lp.RowsNoted ↔ lp.pendingRows = #[] := by
  rw [pendingRows, Array.filter_eq_empty_iff]
  refine forall₂_congr fun r _ => ?_
  rw [Bool.not_eq_true, Option.any_eq_false]
  exact forall₂_congr fun row _ => Row.hasNews_eq_false.symm

theorem changedSides_eq (lp : Relaxation σ) : lp.changedSides =
    lp.pendingRows.filterMap fun r => do
      let row ← lp.matrix.row? r
      return (← row.solverPosition, row) := by
  rw [changedSides, queuedRows, pendingRows, Array.filter_filterMap, Array.filterMap_filter]
  congr 1
  funext r
  cases hrow : lp.matrix.row? r with
  | none => rfl
  | some row =>
    cases hposition : row.solverPosition with
    | none => simp [hposition]
    | some i =>
      by_cases hnews : row.spec = row.sent <;> simp [hposition, hnews, Row.hasNews]

/-- The solver does not have to be told of rows that say nothing new. -/
theorem noteRows_eq (lp : Relaxation σ) : lp.noteRows = { lp with
    matrix := lp.matrix.modifyRows lp.pendingRows.toList noteRow, changedRows := #[] } := by
  have hidem (row : Row) : noteRow (noteRow row) = noteRow row := rfl
  have hrows : (lp.matrix.modifyRows lp.changedRows.toList noteRow).rows =
      (lp.matrix.modifyRows lp.pendingRows.toList noteRow).rows := by
    refine ConstraintMatrix.rows_ext
      (by rw [ConstraintMatrix.size_modifyRows, ConstraintMatrix.size_modifyRows]) fun r => ?_
    simp only [ConstraintMatrix.row?_modifyRows hidem, Array.mem_toList_iff, pendingRows,
      Array.mem_filter]
    by_cases hr : r ∈ lp.changedRows
    · cases hrow : lp.matrix.row? r with
      | none => simp
      | some row =>
        by_cases hnews : row.hasNews = true
        · simp [hr, hnews]
        · have hnoted : noteRow row = row := congrArg (fun sent => { row with sent })
            (Row.hasNews_eq_false.mp (Bool.eq_false_iff.mpr hnews))
          simp [hr, hnews, hnoted]
    · simp [hr]
  rw [noteRows]
  congr 1
  exact congrArg (fun rows => { lp.matrix with rows }) hrows

theorem phase_noteRows (h : Transactional held) :
    Phase OfSolver (Alike held) (Alike held) (fun lp => lp.Trimmed ∧ lp.changedColumns = #[])
      RowsNoted syncChangedRows := by
  refine phase_of_call (fun lp => (!lp.changedSides.isEmpty) = true) sidesChange id noteRows
    (fun _ => ends_syncChangedRows_exactly _)
    (fun hlp => (ends_noteChangedRows hlp).mono_ok fun _ _ ht => noted_iff.mp ht.1)
    (fun _ => h.changeSides _ _ _) (fun _ => rfl) (fun _ => rfl) (fun {lp} _ hdone => ?_)
    (fun {lp t} halike hdone => ?_) fun {lp t} hlp ht halike => ?_
  · have hpending := rowsNoted_iff.mp hdone
    have hsides : lp.changedSides = #[] := by
      rw [changedSides_eq, hpending, Array.filterMap_empty]
    refine ⟨by simp [hsides], ?_⟩
    change Alike held lp lp.noteRows
    rw [noteRows_eq, hpending]
    exact ⟨⟨_, _, _, _, _, rfl⟩, rfl, hpending.symm⟩
  · exact rowsNoted_iff.mpr (halike.pendingRows.trans (rowsNoted_iff.mp hdone))
  · have halike : Alike held lp t := halike.elim id id
    obtain ⟨_, _, _, _, rfl⟩ := halike.exists_eq hlp.1.unsynced ht.1.unsynced
    have hsides := changedSides_eq lp
    rw [← halike.pendingRows] at hsides
    have hsides := (changedSides_eq _).trans hsides.symm
    refine ⟨by rw [hsides], ?_, halike, ?_⟩
    · simp only [id_eq, sidesChange, hsides, Determined.encode h halike.solver]
    · rw [id_eq, id_eq, noteRows_eq, noteRows_eq, halike.pendingRows]
      exact ⟨⟨_, _, _, _, _, rfl⟩, halike.solver, rfl⟩

/-! ## Additions -/

theorem linkNewColumns_of_none (h : lp.matrix.solverColumns.size = lp.columns.size) :
    lp.linkNewColumns = lp := by
  rw [linkNewColumns, newColumns, ConstraintMatrix.extract_eq_nil_of_le h.ge]
  rfl

theorem linkNewRows_of_none (h : lp.matrix.solverRows.size = lp.rows.size) :
    lp.linkNewRows = lp := by
  rw [linkNewRows, newRows, ConstraintMatrix.extract_eq_nil_of_le h.ge]
  rfl

/-- Where there are no new columns, the first change is behind the active ones. -/
theorem Noted.attachNewColumns_of_none (h : lp.Noted)
    (hnone : lp.matrix.solverColumns.size = lp.columns.size) : lp.attachNewColumns = lp := by
  have hfirst : lp.columns.size = lp.matrix.firstChangedColumn :=
    Nat.le_antisymm (hnone.symm.le.trans h.columns.size_le)
      h.coherent.columnsAgree.le_left
  rw [attachNewColumns, newColumns, ConstraintMatrix.extract_eq_nil_of_le hnone.ge, hfirst]
  rfl

theorem Noted.attachNewRows_of_none (h : lp.Noted)
    (hnone : lp.matrix.solverRows.size = lp.rows.size) : lp.attachNewRows = lp := by
  have hfirst : lp.rows.size = lp.matrix.firstChangedRow :=
    Nat.le_antisymm (hnone.symm.le.trans h.rows.size_le)
      h.coherent.rowsAgree.le_left
  rw [attachNewRows, newRows, ConstraintMatrix.extract_eq_nil_of_le hnone.ge, hfirst]
  rfl

/-- The solver lacks an active column. -/
def LacksColumns (lp : Relaxation σ) : Prop := lp.matrix.solverColumns.size ≠ lp.columns.size

/-- The solver lacks an active row. -/
def LacksRows (lp : Relaxation σ) : Prop := lp.matrix.solverRows.size ≠ lp.rows.size

theorem Noted.ends_syncAddedColumns_exactly (h : lp.Noted) :
    Ends syncAddedColumns lp
      (fun _ t => ∃ s flags status,
        Called lp.LacksColumns lp.linkNewColumns.columnsAddition lp.solver s ∧
        t = { lp.linkNewColumns.attachNewColumns with solver := s, flags, status })
      fun e t => ∃ s, Refused lp.LacksColumns lp.linkNewColumns.columnsAddition e lp.solver s ∧
        t = { lp.linkNewColumns with solver := s } := by
  by_cases hnone : lp.matrix.solverColumns.size = lp.columns.size
  · refine (ends_syncAddedColumns_none hnone).mono_ok ?_
    rintro _ t rfl
    refine ⟨t.solver, t.flags, t.status, called_of_neg (not_not.mpr hnone), ?_⟩
    rw [linkNewColumns_of_none hnone, h.attachNewColumns_of_none hnone]
  · refine (Relaxation.ends_syncAddedColumns_exactly h.coherent hnone).mono_ok ?_
    rintro _ _ ⟨s, flags, status, hs, rfl⟩
    exact ⟨s, flags, status, .of_pos hnone hs, rfl⟩

theorem Noted.ends_syncAddedRows_exactly (h : lp.Noted) :
    Ends syncAddedRows lp
      (fun _ t => ∃ s flags status,
        Called lp.LacksRows lp.linkNewRows.rowsAddition lp.solver s ∧
        t = { lp.linkNewRows.attachNewRows with solver := s, flags, status })
      fun e t => ∃ s, Refused lp.LacksRows lp.linkNewRows.rowsAddition e lp.solver s ∧
        t = { lp.linkNewRows with solver := s } := by
  by_cases hnone : lp.matrix.solverRows.size = lp.rows.size
  · refine (ends_syncAddedRows_none hnone).mono_ok ?_
    rintro _ t rfl
    refine ⟨t.solver, t.flags, t.status, called_of_neg (not_not.mpr hnone), ?_⟩
    rw [linkNewRows_of_none hnone, h.attachNewRows_of_none hnone]
  · refine (Relaxation.ends_syncAddedRows_exactly h.coherent hnone).mono_ok ?_
    rintro _ _ ⟨s, flags, status, hs, rfl⟩
    exact ⟨s, flags, status, .of_pos hnone hs, rfl⟩

/-- Relaxations remain alike when new columns are linked in one or both of them. -/
theorem Noted.alike_linkNewColumns (hlp : lp.Noted) (ht : t.Noted)
    (h : Alike held lp t ∨ Alike held lp.linkNewColumns t) :
    Alike held lp.linkNewColumns t.linkNewColumns := by
  have hm := (hlp.coherent.sound.linkColumns lp.newColumns).without
  have hunsynced := (congrArg ConstraintMatrix.synced hm).trans hlp.unsynced
  rcases h with h | h
  · have hm' := (ht.coherent.sound.linkColumns t.newColumns).without
    have hpending : t.linkNewColumns.pendingRows = lp.linkNewColumns.pendingRows :=
      (rowsNoted_iff.mp (ht.rowsNoted.link hm')).trans (rowsNoted_iff.mp (hlp.rowsNoted.link hm)).symm
    obtain ⟨_, _, _, _, rfl⟩ := h.exists_eq hlp.unsynced ht.unsynced
    exact ⟨⟨_, _, _, _, _, rfl⟩, h.solver, hpending⟩
  · have hself : t.linkNewColumns = t := by
      obtain ⟨solver, changedRows, flags, status, rfl⟩ :=
        h.exists_eq hunsynced ht.unsynced
      exact congrArg (fun u : Relaxation σ => { u with solver, changedRows, flags, status })
        hlp.coherent.linkNewColumns_again
    rwa [hself]

theorem Noted.alike_linkNewRows (hlp : lp.Noted) (ht : t.Noted)
    (h : Alike held lp t ∨ Alike held lp.linkNewRows t) :
    Alike held lp.linkNewRows t.linkNewRows := by
  have hm := (hlp.coherent.sound.linkRows hlp.coherent.live_newRows).without
  have hunsynced := (congrArg ConstraintMatrix.synced hm).trans hlp.unsynced
  rcases h with h | h
  · have hm' := (ht.coherent.sound.linkRows ht.coherent.live_newRows).without
    have hpending : t.linkNewRows.pendingRows = lp.linkNewRows.pendingRows :=
      (rowsNoted_iff.mp (ht.rowsNoted.link hm')).trans (rowsNoted_iff.mp (hlp.rowsNoted.link hm)).symm
    obtain ⟨_, _, _, _, rfl⟩ := h.exists_eq hlp.unsynced ht.unsynced
    exact ⟨⟨_, _, _, _, _, rfl⟩, h.solver, hpending⟩
  · have hself : t.linkNewRows = t := by
      obtain ⟨solver, changedRows, flags, status, rfl⟩ :=
        h.exists_eq hunsynced ht.unsynced
      exact congrArg (fun u : Relaxation σ => { u with solver, changedRows, flags, status })
        hlp.coherent.linkNewRows_again
    rwa [hself]

/-- A batch depends on the solver through what counts as infinite only. -/
theorem columnBatch_solver (h : Transactional held) {s s' : σ} (hs : HoldSame held s s')
    (m : ConstraintMatrix) (cs : List ColumnRef) : columnBatch m s' cs = columnBatch m s cs := by
  have hcolumn : withColumn m s' = withColumn m s := by
    funext batch c
    simp only [withColumn, Determined.encode h hs]
  rw [columnBatch, columnBatch, hcolumn]

theorem rowBatch_solver (h : Transactional held) {s s' : σ} (hs : HoldSame held s s')
    (m : ConstraintMatrix) (rs : List RowRef) : rowBatch m s' rs = rowBatch m s rs := by
  have hrow : withRow m s' = withRow m s := by
    funext batch r
    simp only [withRow, Determined.encode h hs]
  rw [rowBatch, rowBatch, hrow]

theorem Alike.columnsAddition (halike : Alike held lp t) (h : Transactional held) :
    t.columnsAddition = lp.columnsAddition := by
  obtain ⟨⟨_, _, _, _, _, rfl⟩, hs, -⟩ := halike
  exact congrArg Solver.addColumns (columnBatch_solver h hs lp.matrix lp.newColumns)

theorem Alike.rowsAddition (halike : Alike held lp t) (h : Transactional held) :
    t.rowsAddition = lp.rowsAddition := by
  obtain ⟨⟨_, _, _, _, _, rfl⟩, hs, -⟩ := halike
  exact congrArg Solver.addRows (rowBatch_solver h hs lp.matrix lp.newRows)

theorem Alike.lacksColumns_iff (h : Alike held lp t) : t.LacksColumns ↔ lp.LacksColumns := by
  obtain ⟨⟨_, _, _, _, _, rfl⟩, -⟩ := h
  exact Iff.rfl

theorem Alike.lacksRows_iff (h : Alike held lp t) : t.LacksRows ↔ lp.LacksRows := by
  obtain ⟨⟨_, _, _, _, _, rfl⟩, -⟩ := h
  exact Iff.rfl

/-- Linking changes nothing about which lines the solver lacks. -/
theorem Coherent.lacksColumns_linkNewColumns (h : lp.Coherent) :
    lp.linkNewColumns.LacksColumns ↔ lp.LacksColumns := by
  have hheld : lp.linkNewColumns.matrix.solverColumns = lp.matrix.solverColumns :=
    congrArg (·.solverColumns) (h.sound.linkColumns lp.newColumns).without
  rw [LacksColumns, hheld]
  rfl

theorem Coherent.lacksRows_linkNewRows (h : lp.Coherent) :
    lp.linkNewRows.LacksRows ↔ lp.LacksRows := by
  have hheld : lp.linkNewRows.matrix.solverRows = lp.matrix.solverRows :=
    congrArg (·.solverRows) (h.sound.linkRows h.live_newRows).without
  rw [LacksRows, hheld]
  rfl

theorem RowsNoted.attachNewRows (h : lp.RowsNoted) : lp.attachNewRows.RowsNoted := by
  intro r hr row hrow
  exact ConstraintMatrix.attachRows_keeps (P := fun row => row.spec = row.sent)
    (fun _ _ _ => rfl) (h r hr) hrow

theorem Alike.attachNewColumns (h : Alike held lp t) :
    Alike held lp.attachNewColumns t.attachNewColumns := by
  obtain ⟨⟨_, _, _, _, _, rfl⟩, hsolver, hpending⟩ := h
  exact ⟨⟨_, _, _, _, _, rfl⟩, hsolver, hpending⟩

theorem Alike.attachNewRows (h : Alike held lp t) (hlp : lp.RowsNoted) (ht : t.RowsNoted) :
    Alike held lp.attachNewRows t.attachNewRows := by
  have hpending := (rowsNoted_iff.mp ht.attachNewRows).trans
    (rowsNoted_iff.mp hlp.attachNewRows).symm
  obtain ⟨⟨_, _, _, _, _, rfl⟩, hsolver, -⟩ := h
  exact ⟨⟨_, _, _, _, _, rfl⟩, hsolver, hpending⟩

theorem phase_addColumns (h : Transactional held) :
    Phase OfSolver (Alike held) (Alike held) Noted
      (fun lp => lp.matrix.solverColumns.size = lp.columns.size) syncAddedColumns := by
  refine phase_of_call LacksColumns columnsAddition linkNewColumns attachNewColumns
    Noted.ends_syncAddedColumns_exactly
    (fun hlp => (ends_addNewColumns hlp).mono_ok fun _ _ ht => ht.1) (fun _ => h.addColumns _)
    (fun _ => rfl) (fun _ => rfl) (fun {lp} hlp hdone => ?_) (fun {lp t} halike hdone => ?_)
    fun {lp t} hlp ht halike => ?_
  · rw [linkNewColumns_of_none hdone, hlp.attachNewColumns_of_none hdone]
    exact ⟨not_not.mpr hdone, refl lp⟩
  · exact not_not.mp (mt halike.lacksColumns_iff.mp (not_not.mpr hdone))
  · have hlinked := hlp.alike_linkNewColumns ht halike
    have hlacks := ht.coherent.lacksColumns_linkNewColumns.symm.trans
      (hlinked.lacksColumns_iff.trans hlp.coherent.lacksColumns_linkNewColumns)
    exact ⟨hlacks, hlinked.columnsAddition h, hlinked, hlinked.attachNewColumns⟩

theorem phase_addRows (h : Transactional held) :
    Phase OfSolver (Alike held) (Alike held)
      (fun lp => lp.Noted ∧ lp.matrix.solverColumns.size = lp.columns.size)
      (fun lp => lp.matrix.solverRows.size = lp.rows.size) syncAddedRows := by
  refine phase_of_call LacksRows rowsAddition linkNewRows attachNewRows
    (fun hlp => hlp.1.ends_syncAddedRows_exactly)
    (fun hlp => (ends_addNewRows hlp).mono_ok fun _ _ ht => ht.1) (fun _ => h.addRows _)
    (fun _ => rfl) (fun _ => rfl) (fun {lp} hlp hdone => ?_) (fun {lp t} halike hdone => ?_)
    fun {lp t} hlp ht halike => ?_
  · rw [linkNewRows_of_none hdone, hlp.1.attachNewRows_of_none hdone]
    exact ⟨not_not.mpr hdone, refl lp⟩
  · exact not_not.mp (mt halike.lacksRows_iff.mp (not_not.mpr hdone))
  · obtain ⟨hlp, -⟩ := hlp
    obtain ⟨ht, -⟩ := ht
    have hlinked := hlp.alike_linkNewRows ht halike
    have hlacks := ht.coherent.lacksRows_linkNewRows.symm.trans
      (hlinked.lacksRows_iff.trans hlp.coherent.lacksRows_linkNewRows)
    have hnoted (lp : Relaxation σ) (hlp : lp.Noted) : lp.linkNewRows.RowsNoted :=
      have hcoherent := hlp.coherent
      hlp.rowsNoted.link (hcoherent.sound.linkRows hcoherent.live_newRows).without
    exact ⟨hlacks, hlinked.rowsAddition h, hlinked,
      hlinked.attachNewRows (hnoted lp hlp) (hnoted t ht)⟩

end Relaxation

end CertifiedLp
