import CertifiedLp.Relaxation.Certificate

/-!
# Solving

A solve brings the solver up to date, configures it, runs it, and turns its answer into a status
with a certificate. Limits that are reached and answers that cannot be certified are results of a
solve, not errors.
-/

namespace CertifiedLp

/-- The result of a solve. -/
structure SolveResult where
  /-- The status of the linear program. -/
  status : LpStatus
  /-- Whether the solver failed, also in the second attempt. -/
  solveError : Bool
  /-- Whether the objective value or the infeasibility is certified. -/
  provedBound : Bool
  /-- Whether the solver gave an answer that could not be certified, so that the caller should
  solve in another way. -/
  needsRecovery : Bool
  deriving DecidableEq

namespace Relaxation

variable {σ : Type} [Solver σ]

/-- The time that is left for a solve: none if the limit is used up. All operations count as
instantaneous, so no time has passed since the relaxation was created. A limit that is not a number is no
limit. -/
def remainingTime? : Option Binary64 → Option Extended
  | none => some .posInf
  | some limit =>
    match limit.toExtended? with
    | none => some .posInf
    | some seconds => if seconds ≤ 0 then none else some seconds

/-- Give the solver the basis of an approximation to start from, or let it start from scratch. -/
def chooseStart (a : Approximation) : RelaxationM σ Unit := do
  let lp ← get
  let basis := if lp.settings.fromScratch then none
    else a.basis? lp.matrix.solverColumns lp.matrix.solverRows
  match basis with
  | some basis =>
    onSolver (Solver.setBasis basis)
    onSolver (Solver.setInt .fromScratch 0)
  | none => onSolver (Solver.setInt .fromScratch 1)

/-- Run a call of the solver, and tell whether it succeeded. -/
def succeeds (call : SolverM σ Unit) : RelaxationM σ Bool :=
  tryCatch (do onSolver call; return true) fun _ => return false

/-- Solve with the dual simplex method, and if that fails with the primal simplex method from
scratch. Return whether one of the two succeeded. -/
def runSolver : RelaxationM σ Bool := do
  if ← succeeds Solver.solveDual then return true
  else
    onSolver (Solver.setInt .fromScratch 1)
    succeeds Solver.solvePrimal

/-- The solver stopped at the objective limit with an objective value that is below it. The last
pivot, which takes the objective value beyond the limit, is made up for by a single iteration of
the dual simplex method without a limit. The parameters are set back afterwards. -/
def confirmObjectiveLimit (limit : Extended) : RelaxationM σ Answer := do
  let fromScratch ← askSolver (Solver.intParameter · .fromScratch)
  let pricing ← askSolver (Solver.intParameter · .pricing)
  let iterationLimit ← askSolver (Solver.intParameter · .iterationLimit)
  onSolver (Solver.setReal .objectiveLimit .posInf)
  onSolver (Solver.setInt .fromScratch 0)
  onSolver (Solver.setInt .pricing Pricing.steepestEdge.code)
  onSolver (Solver.setInt .iterationLimit 1)
  let solved ← succeeds Solver.solveDual
  onSolver (Solver.setReal .objectiveLimit limit)
  onSolver (Solver.setInt .fromScratch fromScratch)
  onSolver (Solver.setInt .pricing pricing)
  onSolver (Solver.setInt .iterationLimit iterationLimit)
  let lp ← get
  match if solved then Solver.answer? lp.solver else none with
  | some .optimal => return .optimal
  | some .objectiveLimit => return .objectiveLimit
  | some .infeasible => return .infeasible
  | some .unbounded => return .unbounded
  | _ =>
    markUnsolved
    throw (.breakdown .limitNotConfirmed)

/-- The answer of the solver. -/
def takeAnswer (limit : Extended) : RelaxationM σ Answer := do
  match Solver.answer? (← get).solver with
  | none =>
    markUnsolved
    throw (.breakdown .noAnswer)
  | some .objectiveLimit =>
    let objective ← askSolver Solver.objectiveValue
    if objective < limit then confirmObjectiveLimit limit else return .objectiveLimit
  | some answer => return answer

/-- Certify an answer. There is nothing to certify if the solver stopped at a limit of its own, and
an unbounded ray is never certified. -/
def certify (answer : Answer) (limit : Extended) (a : Approximation) (write : Bool) :
    RelaxationM σ (Option Bool × Approximation) := do
  match answer with
  | .optimal =>
    let (proved, a) ← acceptSolution a write none
    if limit.isFinite && limit < (← get).solverObjective then
      modify ({ · with status := .objectiveLimit })
    return (some proved, a)
  | .objectiveLimit =>
    let (proved, a) ← acceptSolution a write (some limit)
    return (some proved, a)
  | .infeasible =>
    let (proved, a) ← acceptFarkas a write
    return (some proved, a)
  | .unbounded => return (some false, a)
  | .iterationLimit | .timeLimit => return (none, a)

/-- Turn the answer of the solver into a result. -/
def conclude (answer : Answer) (limit : Extended) (a : Approximation) (write : Bool) :
    RelaxationM σ (SolveResult × Approximation) := do
  modify fun lp => { lp with status := answer.status, flags := { lp.flags with solved := true } }
  let (proved, a) ← certify answer limit a write
  let status := (← get).status
  match proved with
  | some false =>
    markUnsolved
    return (⟨.notSolved, false, false, true⟩, a)
  | _ => return (⟨status, false, proved.isSome, false⟩, a)

/-- Solve the linear program from the basis of an approximation. If that is wanted, write the
solution into the approximation. -/
def solveAnd (write : Bool) (a : Approximation) : RelaxationM σ (SolveResult × Approximation) := do
  sync
  match remainingTime? (← get).settings.timeLimit with
  | none =>
    modify fun lp => { lp with status := .timeLimit, flags := { lp.flags with solved := true } }
    return (⟨.timeLimit, false, false, false⟩, a)
  | some time =>
    onSolver (Solver.setReal .timeLimit time)
    chooseStart a
    let limit := (← get).objectiveLimit
    onSolver (Solver.setReal .objectiveLimit limit)
    onSolver (Solver.setInt .iterationLimit
      (iterationLimitCode (← get).settings.iterationLimit))
    if ← runSolver then
      modify fun lp => { lp with nrSolves := lp.nrSolves + 1 }
      let answer ← takeAnswer limit
      let (result, a) ← conclude answer limit a write
      let lp ← get
      if write then return (result, { a with status := lp.status, solved := lp.flags.solved })
      else return (result, a)
    else
      modify fun lp => { lp with status := .error, flags := { lp.flags with solved := false } }
      return (⟨.error, true, false, false⟩, a)

/-- Solve the linear program, and write the solution into the approximation if the settings say
so. -/
def solve (a : Approximation) : RelaxationM σ (SolveResult × Approximation) := do
  solveAnd (← get).settings.writeApproximation a

end Relaxation

end CertifiedLp
