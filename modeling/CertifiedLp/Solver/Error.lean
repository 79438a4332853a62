import CertifiedLp.Extended.Text

/-!
# Errors of a solver

Why a solver did not carry out a call. Each cause is a constructor; the wording is in one function.
-/

namespace CertifiedLp

/-- The two kinds of lines of a constraint matrix. -/
inductive LineKind where
  | column
  | row
  deriving DecidableEq

/-- The name of a kind. -/
def LineKind.name : LineKind → String
  | column => "column"
  | row => "row"

/-- Why the input of a call is refused. -/
inductive Refusal where
  /-- An objective or matrix coefficient is infinite, or as large as what stands for infinity. -/
  | coefficientNotFinite (value : Extended)
  /-- The lists of positions and values of a call do not have the same length. -/
  | lengthsDiffer (kind : LineKind)
  /-- The lists that describe the new lines do not have the same length. -/
  | batchLengthsDiffer (kind : LineKind)
  /-- A basis does not have one status for each column and row. -/
  | basisSize
  /-- An iteration limit is negative. -/
  | iterationLimit (value : Int)
  deriving DecidableEq

/-- The wording of a refusal. -/
def Refusal.message : Refusal → String
  | coefficientNotFinite value => "coefficient " ++ value.render ++ " is not finite"
  | lengthsDiffer kind => kind.name ++ " indices and values differ in length"
  | batchLengthsDiffer kind => kind.name ++ " batch fields differ in length"
  | basisSize => "basis size doesn't match the LP"
  | iterationLimit value => "iteration limit " ++ toString value

/-- Something went wrong inside a solver. -/
inductive SolverError where
  /-- A position is not below the number of columns or rows. -/
  | outOfRange (kind : LineKind) (index count : Nat)
  /-- The input of a call is refused. -/
  | invalidInput (cause : Refusal)
  /-- No solution, ray or proof of the requested kind is at hand. -/
  | noSolution
  /-- There is no pricing rule with this code. -/
  | unsupportedPricing (code : Int)
  /-- The solver failed. -/
  | failed (reason : String)
  deriving DecidableEq

/-- The wording of an error. -/
def SolverError.message : SolverError → String
  | outOfRange kind index count =>
    kind.name ++ " index " ++ toString index ++ " is out of range, the solver has " ++
      toString count
  | invalidInput cause => "invalid input: " ++ cause.message
  | noSolution => "no solution is available"
  | unsupportedPricing code => "parameter \"pricing " ++ toString code ++ "\" is not supported"
  | failed reason => "solve failed: " ++ reason

end CertifiedLp
