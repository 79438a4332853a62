import Mathlib
import CertifiedLp.Proofs.Relaxation.Syncing

/-!
# Solves and dives

A solve brings the solver up to date first, and so do the start and the end of a dive. All else that
they do edits nothing, the changes apart that the end of a dive takes back and the removal of rows. So
solves and dives go along every relation that these steps go along.
-/

namespace CertifiedLp

namespace Relaxation

open ConstraintMatrix (Sheds)

variable {σ : Type} [Solver σ] {R : Relaxation σ → Relaxation σ → Prop}

/-- The steps of solves and dives relate the relaxation before them to the one after them. -/
structure Bears (R : Relaxation σ → Relaxation σ → Prop) : Prop extends AdmitsChanges R where
  unedited : ∀ {lp t}, Unedited Resized lp t → R lp t
  dive : ∀ (lp : Relaxation σ) dive, R lp { lp with dive }
  iterationLimit : ∀ (lp : Relaxation σ) iterationLimit,
    R lp { lp with settings := { lp.settings with iterationLimit } }
  sync : Along R sync
  shrinkRows : ∀ size, Along R (shrinkRows size)

/-- All of these steps but two kinds are quiet. -/
theorem bears_of_quiet (hquiet : ∀ {lp t}, Quiet lp t → R lp t) (hsync : Along R sync)
    (hshrink : ∀ size, Along R (shrinkRows size)) : Bears R where
  respecified h := hquiet h.quiet
  rowRespecified _ h := hquiet h.quiet
  unedited h := hquiet h.quiet
  dive _ _ := hquiet (quiet_of_eq rfl rfl rfl rfl)
  iterationLimit _ _ := hquiet (quiet_of_eq rfl rfl rfl rfl)
  sync := hsync
  shrinkRows := hshrink

namespace Bears

variable (h : Bears R)

include h

theorem along_unedited {α : Type} {x : RelaxationM σ α} (hx : Along (Unedited Resized) x) :
    Along R x := hx.mono fun _ _ => h.unedited

theorem along_dive (dive : Option (Dive σ)) :
    Along R (modify ({ · with dive }) : RelaxationM σ Unit) := .modify fun lp => h.dive lp dive

/-- A call that configures the solver. -/
theorem onSolver {x : SolverM σ Unit} (hx : Along Resized x) : Along R (onSolver x) :=
  h.along_unedited (unedited_onSolver hx)

variable [IsPreorder (Relaxation σ) R]

/-! ## Solves -/

theorem solveAnd (write : Bool) (a : Approximation) :
    Along R (solveAnd write a : RelaxationM σ (SolveResult × Approximation)) := by
  rw [solveAnd_eq]
  refine .bind h.sync fun _ => ?_
  exact h.along_unedited (unedited_solveSynced respects_resized write a)

theorem solve (a : Approximation) :
    Along R (solve a : RelaxationM σ (SolveResult × Approximation)) :=
  .get fun _ => h.solveAnd _ a

/-! ## Dives -/

theorem startDive (store : Bool) : Along R (startDive store : RelaxationM σ Unit) := by
  have hrest (snapshot : Solver.Snapshot σ) (flags : Flags) (stored : Bool) :
      Along R (modify fun lp : Relaxation σ => { lp with dive := some {
        snapshot, flags, stored
        nrRows := lp.rows.size, iterationLimit := lp.settings.iterationLimit, sideLog := #[] } } :
          RelaxationM σ Unit) := .modify fun lp => h.dive lp _
  refine .get fun lp => .ite .throw_bind ?_
  refine .bind h.sync fun _ => .bind (along_askSolver _) fun snapshot => ?_
  refine .get fun lp' => .ite ?_ (hrest _ _ _)
  exact .bind (h.along_unedited unedited_storeSolution) fun _ => hrest _ _ _

theorem undoDive (problem : Problem) (dive : Dive σ) :
    Along R (undoDive problem dive : RelaxationM σ Unit) := by
  rw [undoDive_eq]
  refine .bind (h.undoEdits h.shrinkRows problem dive) fun _ => ?_
  exact .bind h.sync fun _ => h.onSolver (respects_resized.setInt _ _)

/-- The end of a dive, also if the solver refuses it. -/
theorem endDive (problem : Problem) : Along R (endDive problem : RelaxationM σ Unit) := by
  refine .get fun lp => ?_
  split
  · exact .throw
  next dive _ =>
  refine .bind (h.along_dive none) fun _ => ?_
  refine .bind (.tryCatch (h.undoDive problem dive) fun e => ?_) fun _ => ?_
  · exact .bind (h.along_dive (some dive)) fun _ => .throw
  have hlimit : Along R (setIterationLimit dive.iterationLimit : RelaxationM σ Unit) :=
    .modify fun lp => h.iterationLimit lp _
  refine .bind hlimit fun _ => ?_
  refine .bind (.tryCatch (h.onSolver (respects_resized.restore _)) fun _ => .pure) fun _ => ?_
  refine .ite (h.along_unedited unedited_restoreSolution) ?_
  refine .bind (h.along_unedited unedited_markUnsolved) fun _ => ?_
  exact h.along_unedited (.modify fun _ => unedited_status ..)

end Bears

/-- Solves and dives carry a relaxation. -/
theorem bears_carries : Bears (Carries Sheds : Relaxation σ → Relaxation σ → Prop) :=
  bears_of_quiet (fun h hlp => (h.carries hlp).sheds) along_sync
    fun size => along_sheds (along_shrinkRows size)

end Relaxation

end CertifiedLp
