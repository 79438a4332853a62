import CertifiedLp.Solver.Basic

/-!
# Scripted solvers

A solver around another one, for experiments with a relaxation. It keeps a journal of the calls that
change it, fails in calls that it is told to fail in, and reports answers from a script and values
that it is given, right or wrong. Everything else it leaves to the inner solver.
-/

namespace CertifiedLp

/-- The calls that can be made to fail. -/
inductive Operation where
  | addColumns
  | addRows
  | deleteColumns
  | deleteRows
  | changeObjective
  | changeBounds
  | changeSides
  | setBasis
  | basis
  | objectiveValue
  | solution
  | farkas
  | snapshot
  | restore
  | setInt (parameter : IntParameter)
  | intParameter (parameter : IntParameter)
  | setReal (parameter : RealParameter)
  | solvePrimal
  | solveDual
  deriving DecidableEq

/-- The name of a call. -/
def Operation.name : Operation → String
  | addColumns => "add_columns"
  | addRows => "add_rows"
  | deleteColumns => "delete_columns"
  | deleteRows => "delete_rows"
  | changeObjective => "change_objective"
  | changeBounds => "change_bounds"
  | changeSides => "change_sides"
  | setBasis => "set_basis"
  | basis => "basis"
  | objectiveValue => "objective_value"
  | solution => "solution"
  | farkas => "dual_farkas"
  | snapshot => "state"
  | restore => "set_state"
  | setInt parameter => "set_int." ++ parameter.name
  | intParameter parameter => "int_parameter." ++ parameter.name
  | setReal parameter => "set_real." ++ parameter.name
  | solvePrimal => "solve_primal"
  | solveDual => "solve_dual"

/-- An entry of the journal. -/
inductive Call where
  | addColumns (batch : ColumnBatch)
  | addRows (batch : RowBatch)
  | deleteColumns (first last : Nat)
  | deleteRows (first last : Nat)
  | changeObjective (columns : Array Nat) (values : Array Extended)
  | changeBounds (columns : Array Nat) (lower upper : Array Extended)
  | changeSides (rows : Array Nat) (lhs rhs : Array Extended)
  | setBasis (basis : Basis)
  | restore
  | setInt (parameter : IntParameter) (value : Int)
  | setReal (parameter : RealParameter) (value : Extended)
  | solvePrimal
  | solveDual
  deriving DecidableEq

/-- The kind of a call in the journal. -/
def Call.operation : Call → Operation
  | addColumns _ => .addColumns
  | addRows _ => .addRows
  | deleteColumns .. => .deleteColumns
  | deleteRows .. => .deleteRows
  | changeObjective .. => .changeObjective
  | changeBounds .. => .changeBounds
  | changeSides .. => .changeSides
  | setBasis _ => .setBasis
  | restore => .restore
  | setInt parameter _ => .setInt parameter
  | setReal parameter _ => .setReal parameter
  | solvePrimal => .solvePrimal
  | solveDual => .solveDual

/-- Whether a call changes the linear program, so that an answer to it is obsolete. -/
def Call.isModification : Call → Bool
  | addColumns _ | addRows _ | deleteColumns .. | deleteRows .. | changeObjective ..
  | changeBounds .. | changeSides .. => true
  | _ => false

/-- What a scripted solver does when it is asked to solve. -/
inductive Direction where
  /-- Leave it to the inner solver. -/
  | solve
  /-- Fail without solving. -/
  | fail
  /-- Solve, and report a status whatever the answer is. -/
  | report (status : LpStatus)
  deriving DecidableEq

/-- A solver that follows a script. -/
structure Scripted (σ : Type) where
  /-- The inner solver. -/
  inner : σ
  /-- The calls that fail. -/
  failing : List Operation
  /-- What to do in the next solves. -/
  script : List Direction
  /-- The status that is reported for the last solve. -/
  reported : Option LpStatus
  /-- The multipliers that are returned as proof of infeasibility. -/
  farkas : Option (Array Extended)
  /-- The values that are returned as solution. -/
  solution : Option Solution
  /-- What is returned as infinity. -/
  infinity : Option Extended
  /-- The calls so far. -/
  journal : Array Call

namespace Scripted

variable {σ : Type} [Solver σ]

/-- A scripted solver without a script. -/
def around (inner : σ) : Scripted σ := ⟨inner, [], [], none, none, none, none, #[]⟩

/-- Leave a call to the inner solver. -/
def delegate {α : Type} (x : SolverM σ α) : SolverM (Scripted σ) α := ExceptT.mk fun s =>
  let (result, inner) := x.run.run s.inner
  (result, { s with inner })

/-- The error of a call that is made to fail. -/
def scriptedFailure (operation : Operation) : SolverError :=
  .failed ("scripted failure of " ++ operation.name)

/-- Write a call into the journal, and leave it to the inner solver unless it is to fail. -/
def perform (call : Call) (x : SolverM σ Unit) : SolverM (Scripted σ) Unit := do
  modify fun s => { s with journal := s.journal.push call }
  if call.operation ∈ (← get).failing then throw (scriptedFailure call.operation)
  if call.isModification then modify ({ · with reported := none })
  delegate x

/-- Answer a question unless it is to fail. -/
def answerUnless {α : Type} (s : Scripted σ) (operation : Operation)
    (answer : Except SolverError α) : Except SolverError α :=
  if operation ∈ s.failing then .error (scriptedFailure operation) else answer

/-- Take the next direction from the script. -/
def nextDirection : SolverM (Scripted σ) Direction := do
  let s ← get
  match s.script with
  | [] => return .solve
  | direction :: script =>
    set { s with script }
    return direction

/-- Solve as the script says. -/
def solveScripted (call : Call) (x : SolverM σ Unit) : SolverM (Scripted σ) Unit := do
  modify fun s => { s with journal := s.journal.push call, reported := none }
  match ← nextDirection with
  | .solve => delegate x
  | .fail => throw (scriptedFailure call.operation)
  | .report status =>
    delegate x
    modify ({ · with reported := some status })

instance : Solver (Scripted σ) where
  Snapshot := Solver.Snapshot σ
  addColumns batch := perform (.addColumns batch) (Solver.addColumns batch)
  addRows batch := perform (.addRows batch) (Solver.addRows batch)
  deleteColumns first last := perform (.deleteColumns first last) (Solver.deleteColumns first last)
  deleteRows first last := perform (.deleteRows first last) (Solver.deleteRows first last)
  changeObjective columns values :=
    perform (.changeObjective columns values) (Solver.changeObjective columns values)
  changeBounds columns lower upper :=
    perform (.changeBounds columns lower upper) (Solver.changeBounds columns lower upper)
  changeSides rows lhs rhs := perform (.changeSides rows lhs rhs) (Solver.changeSides rows lhs rhs)
  setBasis basis := perform (.setBasis basis) (Solver.setBasis basis)
  basis s := s.answerUnless .basis (Solver.basis s.inner)
  intParameter s parameter :=
    s.answerUnless (.intParameter parameter) (Solver.intParameter s.inner parameter)
  setInt parameter value := perform (.setInt parameter value) (Solver.setInt parameter value)
  setReal parameter value := perform (.setReal parameter value) (Solver.setReal parameter value)
  solvePrimal := solveScripted .solvePrimal Solver.solvePrimal
  solveDual := solveScripted .solveDual Solver.solveDual
  reports s answer :=
    match s.reported with
    | some status => answer.status == status
    | none => Solver.reports s.inner answer
  objectiveValue s := s.answerUnless .objectiveValue <|
    match s.solution with
    | some solution => .ok solution.objective
    | none => Solver.objectiveValue s.inner
  solution s := s.answerUnless .solution <|
    match s.solution with
    | some solution => .ok solution
    | none => Solver.solution s.inner
  farkas s := s.answerUnless .farkas <|
    match s.farkas with
    | some multipliers => .ok multipliers
    | none => Solver.farkas s.inner
  snapshot s := s.answerUnless .snapshot (Solver.snapshot s.inner)
  restore snapshot := perform .restore (Solver.restore snapshot)
  infinity s := s.infinity.getD (Solver.infinity s.inner)
  nrColumns s := Solver.nrColumns s.inner
  nrRows s := Solver.nrRows s.inner

end Scripted

end CertifiedLp
