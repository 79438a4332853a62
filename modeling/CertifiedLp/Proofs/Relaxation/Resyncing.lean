import Mathlib
import CertifiedLp.Proofs.Relaxation.Repeating

/-!
# Synchronizing again

The stages of a synchronization, one after the other, are a phase, and so is the synchronization. It
makes no difference whether a relaxation in which all stages are done counts as synced.
-/

namespace CertifiedLp

namespace Relaxation

open Solver (HoldSame Transactional)

variable {σ H : Type} [Solver σ] {held : σ → H} {lp t u : Relaxation σ}

/-- The stages of bringing the solver up to date. -/
def syncStages : RelaxationM σ Unit := do
  syncDeletedColumns
  syncDeletedRows
  syncChangedColumns
  syncChangedRows
  syncAddedColumns
  syncAddedRows

/-- Note that the solver knows of all changes. -/
def markSynced : RelaxationM σ Unit := modifyMatrix ({ · with synced := true })

theorem sync_eq : (sync : RelaxationM σ Unit) = (do
    if !(← get).matrix.synced then
      syncStages
      markSynced) := by
  simp only [sync, syncStages, markSynced, bind_assoc]

/-- All stages are done. -/
def Settled (lp : Relaxation σ) : Prop :=
  lp.ColumnsTrimmed ∧ lp.RowsTrimmed ∧ lp.changedColumns = #[] ∧ lp.RowsNoted ∧
    lp.matrix.solverColumns.size = lp.columns.size ∧ lp.matrix.solverRows.size = lp.rows.size

theorem phase_syncStages (h : Transactional held) :
    Phase OfSolver (Alike held) (Alike held) Syncing Settled syncStages := by
  have hadded := ((phase_addColumns h).bind (phase_addRows h) id).congr fun _ => noted_iff
  have hchanged := (phase_noteColumns h).bind ((phase_noteRows h).bind hadded id) id
  exact (phase_trimColumns h).bind
    ((phase_trimRows h).bind (hchanged.congr fun _ => trimmed_iff) id) id

/-- Where a relaxation counts as synced, all stages are done. -/
theorem Tracked.settled (h : lp.Tracked) (hsynced : lp.matrix.synced = true) : lp.Settled := by
  have hstep := h.aware.inStep hsynced
  refine ⟨⟨?_, ?_, h.aware.watched.columnsUnmarked hsynced⟩,
    ⟨?_, ?_, h.aware.watched.rowsUnmarked hsynced⟩, hstep.changedColumns, ?_, hstep.columns, hstep.rows⟩
  · have hagree := h.coherent.columnsAgree
    rwa [hstep.firstChangedColumn, ← hstep.columns] at hagree
  · rw [hstep.columns, hstep.firstChangedColumn]
  · have hagree := h.coherent.rowsAgree
    rwa [hstep.firstChangedRow, ← hstep.rows] at hagree
  · rw [hstep.rows, hstep.firstChangedRow]
  · intro r hr
    rw [hstep.changedRows] at hr
    exact (Array.not_mem_empty r hr).elim

/-- The relaxation, whether or not it counts as synced. -/
def outdated (lp : Relaxation σ) : Relaxation σ :=
  { lp with matrix := { lp.matrix with synced := false } }

theorem outdated_of_unsynced (h : lp.matrix.synced = false) : lp.outdated = lp := by
  rw [outdated, ← h]

theorem alike_outdated (lp : Relaxation σ) : Alike held lp lp.outdated :=
  ⟨⟨_, _, _, _, _, rfl⟩, rfl, rfl⟩

theorem Tracked.syncing_outdated (h : lp.Tracked) : lp.outdated.Syncing where
  coherent := ⟨ConstraintMatrix.Sound.congr (m := lp.matrix) rfl h.coherent.sound, h.coherent.placed,
    h.coherent.columnsAgree, h.coherent.rowsAgree, h.coherent.counts⟩
  queued := ⟨h.aware.queued.column, h.aware.queued.row⟩
  watched := h.aware.watched.of_lines (nomatch ·) (Nat.le_refl _) (Nat.le_refl _) (⟨·, rfl⟩)
    fun {_ row} hrow hmark => ⟨row, hrow, hmark, rfl⟩
  unsynced := rfl

/-- Where a relaxation counts as synced, the stages change nothing that counts. -/
theorem Tracked.ends_syncStages (h : lp.Tracked) (htrans : Transactional held)
    (hsynced : lp.matrix.synced = true) :
    Ends syncStages lp.outdated (fun _ t => Alike held lp t) fun _ _ => False :=
  ((phase_syncStages htrans).idle h.syncing_outdated
    ((phase_syncStages htrans).respects (alike_outdated lp) (h.settled hsynced))).mono_ok
      fun _ _ ht => IsTrans.trans _ _ _ (alike_outdated lp) ht

/-- What a synchronization makes of a relaxation, the stages make of it. -/
theorem Tracked.exists_syncStages (h : lp.Tracked) (htrans : Transactional held)
    (hrun : sync.run.run lp = (.ok (), t)) :
    ∃ u, syncStages.run.run lp.outdated = (.ok (), u) ∧ Alike held t u := by
  by_cases hsynced : lp.matrix.synced = true
  · have ht : Ends sync lp (fun _ t => t = lp) fun _ _ => False := by
      rw [sync_eq, Ends.bind_iff, Ends.get_iff, if_neg (by simp [hsynced])]
      rfl
    obtain rfl : t = lp := ht.of_ok hrun
    obtain ⟨⟨⟩, u, hu, halike⟩ := (h.ends_syncStages htrans hsynced).exists_ok
    exact ⟨u, hu, halike⟩
  · rw [Bool.not_eq_true] at hsynced
    rw [outdated_of_unsynced hsynced]
    have ht : Ends sync lp (fun _ t => ∃ u, syncStages.run.run lp = (.ok (), u) ∧ Alike held t u)
        fun _ _ => True := by
      rw [sync_eq, Ends.bind_iff, Ends.get_iff, if_pos (by simp [hsynced]), Ends.bind_iff]
      refine (Ends.self _ _).mono (fun _ u hu => ?_) fun _ _ _ => trivial
      exact ⟨u, hu, ⟨_, _, _, _, _, rfl⟩, rfl, rfl⟩
    exact ht.of_ok hrun

theorem phase_sync (h : Transactional held) :
    Phase OfSolver (Alike held) (Alike held) Tracked Settled sync where
  keeps hlp := (ends_sync hlp).mono_ok fun _ _ ht => ⟨ht.1, ht.1.settled ht.2⟩
  idle {lp} hlp hdone := by
    rw [sync_eq, Ends.bind_iff, Ends.get_iff, Ends.ite_iff]
    refine ⟨fun hsynced => ?_, fun _ => refl lp⟩
    rw [Bool.not_eq_true'] at hsynced
    rw [Ends.bind_iff]
    refine ((phase_syncStages h).idle (hlp.syncing hsynced) hdone).mono_ok fun _ t ht => ?_
    exact IsTrans.trans _ _ _ ht ⟨⟨_, _, _, _, _, rfl⟩, rfl, rfl⟩
  respects := (phase_syncStages h).respects
  resumes := by
    obtain ⟨M, hstart, hclosed, hresumes⟩ := (phase_syncStages h).resumes
    have hfrom {lp t : Relaxation σ} (halike : Alike held lp t) :
        Alike held lp.outdated t.outdated :=
      IsTrans.trans _ _ _ (alike_outdated lp).symm (IsTrans.trans _ _ _ halike (alike_outdated t))
    refine ⟨fun lp t => M lp.outdated t.outdated, fun halike => hstart (hfrom halike),
      fun hM halike => hclosed hM (hfrom halike), fun {lp t lp'} hlp ht hM hrun => ?_⟩
    obtain ⟨u, hu, halike⟩ := hlp.exists_syncStages h hrun
    have hstages := hresumes hlp.syncing_outdated ht.syncing_outdated hM hu
    rw [sync_eq, Ends.bind_iff, Ends.get_iff, Ends.ite_iff]
    refine ⟨fun hsynced => ?_, fun hsynced => ?_⟩
    · rw [Bool.not_eq_true'] at hsynced
      have hkeeps := (phase_syncStages h).keeps (ht.syncing hsynced)
      rw [outdated_of_unsynced hsynced] at hstages
      rw [Ends.bind_iff]
      refine (hstages.and hkeeps).mono (fun _ t' ht' => ?_) fun e t' ht' => ?_
      · exact IsTrans.trans _ _ _ halike (IsTrans.trans _ _ _ ht'.1 ⟨⟨_, _, _, _, _, rfl⟩, rfl, rfl⟩)
      · change OfSolver e ∧ M lp.outdated t'.outdated
        rw [outdated_of_unsynced ht'.2.unsynced]
        exact ht'.1
    · -- the stages of the second run would change nothing
      have hsynced : t.matrix.synced = true := by simpa using hsynced
      have hidle := ht.ends_syncStages h hsynced
      obtain ⟨⟨⟩, t', -, ht'⟩ :=
        ((hidle.and hstages).mono (fun _ _ h => h) fun _ _ h => h.1).exists_ok
      exact IsTrans.trans _ _ _ halike (IsTrans.trans _ _ _ ht'.2 ht'.1.symm)

end Relaxation

end CertifiedLp
