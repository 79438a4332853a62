import CertifiedLp.Simplex.StandardForm

/-!
# Tableaux

A tableau is the system of equations of a standard form, solved for a choice of `m` basic
variables: row `k` has coefficient one for its own basic variable and zero for the other basic
variables. Every other variable sits at one of its ends, or at zero if it has none, and the rows
then determine the values of the basic variables.

The first tableau is `[-A | I]`, in which the slack variables are basic.
-/

namespace CertifiedLp

/-- A system of equations solved for its basic variables. -/
structure Tableau (m n : Nat) where
  /-- The coefficients of all variables in each equation. -/
  rows : Vector (Vector Rat (n + m)) m
  /-- The basic variable of each row. -/
  basic : Vector (Fin (n + m)) m
  /-- The status of each variable. -/
  status : Vector BasisStatus (n + m)

namespace Tableau

variable {m n : Nat}

/-- The coefficient of a variable in a row. -/
def coefficient (t : Tableau m n) (k : Fin m) (j : Fin (n + m)) : Rat := (t.rows.get k).get j

/-- The basic variable of a row. -/
def basicVar (t : Tableau m n) (k : Fin m) : Fin (n + m) := t.basic.get k

/-- The status of a variable. -/
def statusOf (t : Tableau m n) (j : Fin (n + m)) : BasisStatus := t.status.get j

/-- The equations hold at a point. -/
def Holds (t : Tableau m n) (z : Vector Rat (n + m)) : Prop :=
  ∀ k : Fin m, sumOver (n + m) (fun j => t.coefficient k j * z.get j) = 0

/-- The tableau in which the slack variables are basic. -/
def initial (p : StandardForm m n) : Tableau m n where
  rows := Vector.ofFn fun i =>
    (Vector.ofFn fun j => -p.coefficient i j) ++
      (Vector.ofFn fun j : Fin m => if i = j then (1 : Rat) else 0)
  basic := Vector.ofFn fun i => Fin.natAdd n i
  status := Vector.ofFn fun j => if j.val < n then (p.boundsOf j).startStatus else .basic

/-- Divide the row of a basic variable by the coefficient of another variable, and subtract
multiples of it from the other rows until that variable occurs in no other row. -/
def eliminate (t : Tableau m n) (k : Fin m) (entering : Fin (n + m)) :
    Vector (Vector Rat (n + m)) m :=
  let pivot := t.coefficient k entering
  let pivotRow := (t.rows.get k).map (· / pivot)
  Vector.ofFn fun r =>
    let row := t.rows.get r
    if r = k then pivotRow
    else
      let factor := row.get entering
      if factor = 0 then row
      else Vector.ofFn fun j => row.get j - factor * pivotRow.get j

/-- Let a variable take the place of the basic variable of a row, which gets the given status. -/
def pivot (t : Tableau m n) (k : Fin m) (entering : Fin (n + m)) (leaving : BasisStatus) :
    Tableau m n where
  rows := t.eliminate k entering
  basic := replaceAt t.basic k entering
  status := replaceAt (replaceAt t.status entering .basic) (t.basicVar k) leaving

/-- The values of the variables outside of the basis, and zero for the basic ones. -/
def nonbasicValues (p : StandardForm m n) (t : Tableau m n) : Vector Rat (n + m) :=
  Vector.ofFn fun j => (p.boundsOf j).statusValue (t.statusOf j)

/-- The values of all variables. A row determines its basic variable, because no other basic
variable occurs in it. -/
def values (p : StandardForm m n) (t : Tableau m n) : Vector Rat (n + m) :=
  let rest := nonbasicValues p t
  (List.finRange m).foldl (fun z k =>
    replaceAt z (t.basicVar k) (-(sumOver (n + m) fun j => t.coefficient k j * rest.get j))) rest

/-- What a unit of each variable costs when the basic variables adapt. -/
def reducedCosts (p : StandardForm m n) (t : Tableau m n) : Vector Rat (n + m) :=
  Vector.ofFn fun j =>
    p.costOf j - sumOver m fun k => p.costOf (t.basicVar k) * t.coefficient k j

/-- Whether a variable outside of the basis may increase. -/
def canIncrease (p : StandardForm m n) (t : Tableau m n) (j : Fin (n + m)) : Bool :=
  (p.boundsOf j).canIncrease (t.statusOf j)

/-- Whether a variable outside of the basis may decrease. -/
def canDecrease (p : StandardForm m n) (t : Tableau m n) (j : Fin (n + m)) : Bool :=
  (p.boundsOf j).canDecrease (t.statusOf j)

/-- The first variable outside of the basis that satisfies a test. -/
def firstNonbasic? (t : Tableau m n) (test : Fin (n + m) → Bool) : Option (Fin (n + m)) :=
  (List.finRange (n + m)).find? fun j => t.statusOf j ≠ .basic && test j

/-! ## Starting from a known basis -/

/-- Make a variable basic in the first possible row whose basic variable is not wanted. -/
def enter (target : Vector BasisStatus (n + m)) (t : Tableau m n) (entering : Fin (n + m)) :
    Tableau m n :=
  if target.get entering ≠ .basic ∨ t.statusOf entering = .basic then t
  else
    match (List.finRange m).find? fun k =>
      target.get (t.basicVar k) ≠ .basic && t.coefficient k entering ≠ 0 with
    | some k => t.pivot k entering .lower
    | none => t

/-- Pivot towards a basis as far as possible, and give every other variable a status that it can
have, preferably the wanted one. -/
def crash (p : StandardForm m n) (target : Vector BasisStatus (n + m)) (t : Tableau m n) :
    Tableau m n :=
  let t := (List.finRange (n + m)).foldl (enter target) t
  { t with status := Vector.ofFn fun j =>
      if t.statusOf j = .basic then .basic else (p.boundsOf j).feasibleStatus (target.get j) }

end Tableau

end CertifiedLp
