import CertifiedLp.Binary64
import CertifiedLp.Solver.Basic

/-!
# Settings

Parameters of a relaxation that stay the same from solve to solve.
-/

namespace CertifiedLp

/-- Methods to certify a bound without solving exactly. A relaxation only carries them along, for
the caller to choose from when a certificate turns out to be invalid. -/
structure BoundMethods where
  /-- Project an approximate dual solution onto the feasible set and shift it. -/
  projectAndShift : Bool
  /-- Shift the bounds of an approximate dual solution. -/
  boundShift : Bool
  deriving DecidableEq

/-- The configuration of a relaxation. -/
structure Settings where
  /-- The seconds that all solves may take together, if they are limited. -/
  timeLimit : Option Binary64
  /-- The iterations that a single solve may take, if they are limited. -/
  iterationLimit : Option Nat
  /-- Whether the primal values of the solver are verified. -/
  checkPrimal : Bool
  /-- Whether complementary slackness of the dual values of the solver is verified. -/
  checkDual : Bool
  /-- Whether no solve starts from a known basis. -/
  fromScratch : Bool
  /-- The pricing rule of the solver. -/
  pricing : Pricing
  /-- Whether the solver scales the linear program. -/
  scaling : Bool
  /-- The methods available for bound certification. -/
  boundMethods : BoundMethods
  /-- Whether every solve writes its rounded solution into the approximation. -/
  writeApproximation : Bool
  deriving DecidableEq

namespace Settings

/-- No limits, all checks, and the solver's own choices. -/
def standard : Settings where
  timeLimit := none
  iterationLimit := none
  checkPrimal := true
  checkDual := true
  fromScratch := false
  pricing := .auto
  scaling := false
  boundMethods := ⟨false, false⟩
  writeApproximation := false

instance : Inhabited Settings := ⟨standard⟩

end Settings

end CertifiedLp
