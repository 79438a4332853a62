import CertifiedLp.Relaxation.Solution
import CertifiedLp.Relaxation.Sync

/-!
# Dives

A dive changes objective coefficients, bounds and sides for a while, and appends rows, to look into
a part of the search space. The end of a dive brings everything back. If the solver fails at that,
the dive stays in progress, and ending it can be tried again.
-/

namespace CertifiedLp

namespace Relaxation

variable {σ : Type} [Solver σ]

/-- Whether a dive is in progress. -/
def isDiving (lp : Relaxation σ) : Bool := lp.dive.isSome

/-- Start a dive. If that is wanted, and there is a solution, put it aside. -/
def startDive (store : Bool) : RelaxationM σ Unit := do
  if (← get).isDiving then throw (.misuse .diveInProgress)
  sync
  let snapshot ← askSolver Solver.snapshot
  let flags := (← get).flags
  let stored := store && flags.solved
  if stored then storeSolution
  modify fun lp => { lp with dive := some {
    snapshot, flags, stored
    nrRows := lp.rows.size, iterationLimit := lp.settings.iterationLimit, sideLog := #[] } }

/-- Limit the iterations of a solve, until the dive ends. -/
def setIterationLimit (limit : Option Nat) : RelaxationM σ Unit :=
  modify fun lp => { lp with settings := { lp.settings with iterationLimit := limit } }

/-- Bring the linear program and the solver back to where they were before a dive. Every step can be
repeated. Rows that were freed meanwhile do not need their sides back. -/
def undoDive (problem : Problem) (dive : Dive σ) : RelaxationM σ Unit := do
  for c in (← get).matrix.columnRefs do
    let spec := (problem.get (← getColumn c).origin).spec
    changeObjective c spec.objective
    changeBound c .lower spec.bounds.lower
    changeBound c .upper spec.bounds.upper
  for (r, side, value) in dive.sideLog.toList.reverse do
    if ((← get).matrix.row? r).isSome then changeSide r side value
  shrinkRows dive.nrRows
  sync
  onSolver (Solver.setInt .iterationLimit (iterationLimitCode dive.iterationLimit))

/-- End a dive. The columns get the objective and bounds of their variables, the rows get their
sides back, rows that were added are removed, and a solution that was put aside is brought back. -/
def endDive (problem : Problem) : RelaxationM σ Unit := do
  match (← get).dive with
  | none => throw (.misuse .noDive)
  | some dive =>
    modify ({ · with dive := none })
    tryCatch (undoDive problem dive) fun e => do
      modify ({ · with dive := some dive })
      throw e
    setIterationLimit dive.iterationLimit
    tryCatch (onSolver (Solver.restore dive.snapshot)) fun _ => pure ()
    if dive.stored then restoreSolution
    else
      markUnsolved
      modify ({ · with flags := { dive.flags with solved := false } })

end Relaxation

end CertifiedLp
