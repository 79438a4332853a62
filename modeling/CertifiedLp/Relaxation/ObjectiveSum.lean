import CertifiedLp.Line

/-!
# Sums of objective contributions

A sum of contributions, some of which may be negative infinity. The infinite ones are counted and
not added, so that removing one of them gives the finite sum back.
-/

namespace CertifiedLp

/-- The sum of the contributions of some columns. -/
structure ObjectiveSum where
  /-- The sum of the finite contributions. -/
  finite : Extended
  /-- The number of infinite contributions. -/
  nrInfinite : Nat
  deriving DecidableEq

namespace ObjectiveSum

/-- The sum of no contributions. -/
def empty : ObjectiveSum := ⟨0, 0⟩

/-- Add a contribution; none stands for negative infinity. -/
def add (s : ObjectiveSum) : Option Extended → ObjectiveSum
  | some x => { s with finite := s.finite + x }
  | none => { s with nrInfinite := s.nrInfinite + 1 }

/-- Remove a contribution that was added before. -/
def remove (s : ObjectiveSum) : Option Extended → ObjectiveSum
  | some x => { s with finite := s.finite - x }
  | none => { s with nrInfinite := s.nrInfinite - 1 }

/-- Replace a contribution. -/
def replace (s : ObjectiveSum) (old new : Option Extended) : ObjectiveSum := (s.remove old).add new

/-- Whether a contribution is infinite. -/
def isInfinite (s : ObjectiveSum) : Bool := 0 < s.nrInfinite

/-- The sum. -/
def value (s : ObjectiveSum) : Extended := if s.isInfinite then .negInf else s.finite

@[simp] theorem value_empty : empty.value = 0 := rfl

/-- Removing an infinite contribution undoes adding it. -/
@[simp] theorem remove_add_none (s : ObjectiveSum) : (s.add none).remove none = s := rfl

end ObjectiveSum

end CertifiedLp
