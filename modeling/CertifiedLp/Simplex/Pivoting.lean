import CertifiedLp.Simplex.Tableau

/-!
# Pivoting

The two phases of the simplex method. The first one restores feasibility: it lets a basic variable
that violates a bound leave the basis for that bound, as the dual simplex method does for an
objective of zero. The second one is the primal simplex method. Both select the smallest possible
variable, by Bland's rule.

A phase is a step that is repeated until it comes to an end. Its decisions depend on nothing but
the statuses of the variables, of which there are `4 ^ (n + m)`; a phase that made more steps would
repeat one and never end, so that number bounds the steps.
-/

namespace CertifiedLp

/-- Repeat a step until it ends, at most a given number of times. -/
def iterate {σ ρ : Type} (step : σ → σ ⊕ ρ) : Nat → σ → σ × Option ρ
  | 0, s => (s, none)
  | fuel + 1, s =>
    match step s with
    | .inl s' => iterate step fuel s'
    | .inr r => (s, some r)

/-- A step that ends ends the repetition. -/
theorem iterate_of_done {σ ρ : Type} {step : σ → σ ⊕ ρ} {fuel : Nat} {s : σ} {r : ρ}
    (h : step s = .inr r) : iterate step (fuel + 1) s = (s, some r) := by
  simp [iterate, h]

/-- A step that continues uses up one repetition. -/
theorem iterate_of_next {σ ρ : Type} {step : σ → σ ⊕ ρ} {fuel : Nat} {s s' : σ}
    (h : step s = .inl s') : iterate step (fuel + 1) s = iterate step fuel s' := by
  simp [iterate, h]

/-- What a solve may use up. -/
structure Budget where
  /-- The number of iterations, if it is limited. -/
  iterations : Option Nat
  /-- The time in seconds, if it is limited. -/
  seconds : Option Rat
  deriving DecidableEq

/-- The two budgets. -/
inductive Limit where
  | iterations
  | time
  deriving DecidableEq

/-- The limit that forbids another iteration. Solving counts as instantaneous, so a time limit is
reached at once or never. -/
def Budget.exhausted? (b : Budget) (iterations : Nat) : Option Limit :=
  if b.iterations.any (· ≤ iterations) then some .iterations
  else if b.seconds.any (· ≤ 0) then some .time
  else none

/-- A tableau and the number of iterations that led to it. -/
structure Progress (m n : Nat) where
  /-- The tableau. -/
  tableau : Tableau m n
  /-- The number of pivots and flips so far. -/
  iterations : Nat

namespace Progress

variable {m n : Nat}

/-- How often a step can be repeated without coming back to the same statuses. -/
def maxSteps (_ : Progress m n) : Nat := Nat.pow 4 (n + m)

end Progress

namespace Tableau

variable {m n : Nat}

/-! ## Restoring feasibility -/

/-- A row whose basic variable violates an end of its bounds. -/
structure Violation (m : Nat) where
  /-- The row. -/
  row : Fin m
  /-- The violated end. -/
  side : Side

/-- The violation of the smallest basic variable that violates its bounds. -/
def firstViolation? (p : StandardForm m n) (t : Tableau m n) : Option (Violation m) :=
  let z := values p t
  (List.finRange m).foldl (fun best k =>
    match (p.boundsOf (t.basicVar k)).violated? (z.get (t.basicVar k)) with
    | none => best
    | some side =>
      match best with
      | some b => if t.basicVar k < t.basicVar b.row then some ⟨k, side⟩ else best
      | none => some ⟨k, side⟩) none

/-- Whether a variable can move such that the violation gets smaller. -/
def repairs (p : StandardForm m n) (t : Tableau m n) (v : Violation m) (j : Fin (n + m)) : Bool :=
  let coefficient := t.coefficient v.row j
  match v.side with
  | .lower =>
    (coefficient < 0 && t.canIncrease p j) || (0 < coefficient && t.canDecrease p j)
  | .upper =>
    (0 < coefficient && t.canIncrease p j) || (coefficient < 0 && t.canDecrease p j)

/-- The multipliers of the rows of the linear program that prove a violation to be permanent. -/
def multipliers (t : Tableau m n) (v : Violation m) : Vector Rat m :=
  Vector.ofFn fun i =>
    let value := t.coefficient v.row (Fin.natAdd n i)
    match v.side with
    | .lower => value
    | .upper => -value

/-- How the first phase ends. -/
inductive Restored (m : Nat) where
  /-- All variables are within their bounds. -/
  | feasible
  /-- There is no feasible point, as the multipliers prove. -/
  | infeasible (multipliers : Vector Rat m)
  /-- The budget is used up. -/
  | stopped (limit : Limit)

/-- A step of the first phase. -/
def restoreStep (p : StandardForm m n) (budget : Budget) (s : Progress m n) :
    Progress m n ⊕ Restored m :=
  let t := s.tableau
  match t.firstViolation? p with
  | none => .inr .feasible
  | some v =>
    match t.firstNonbasic? (t.repairs p v) with
    | none => .inr (.infeasible (t.multipliers v))
    | some entering =>
      match budget.exhausted? s.iterations with
      | some limit => .inr (.stopped limit)
      | none => .inl ⟨t.pivot v.row entering v.side.status, s.iterations + 1⟩

/-! ## Optimizing -/

/-- The first variable outside of the basis that improves the objective when it moves. -/
def improving? (p : StandardForm m n) (t : Tableau m n) : Option (Fin (n + m)) :=
  let d := reducedCosts p t
  t.firstNonbasic? fun j =>
    (d.get j < 0 && t.canIncrease p j) || (0 < d.get j && t.canDecrease p j)

/-- What stops the move of a variable. -/
structure Block (m n : Nat) where
  /-- How far the variable moves. -/
  distance : Rat
  /-- The variable that reaches an end of its bounds. -/
  blocking : Fin (n + m)
  /-- The row of that variable and the end, unless it is the moving variable itself. -/
  row? : Option (Fin m × Side)

/-- How fast the basic variable of a row changes with the moving variable. -/
def rate (t : Tableau m n) (entering : Fin (n + m)) (increase : Bool) (k : Fin m) : Rat :=
  if increase then -t.coefficient k entering else t.coefficient k entering

/-- The end that the basic variable of a row approaches, and the distance at which it gets there. -/
def rowBlock? (p : StandardForm m n) (t : Tableau m n) (z : Vector Rat (n + m))
    (entering : Fin (n + m)) (increase : Bool) (k : Fin m) : Option (Block m n) :=
  let r := t.rate entering increase k
  let j := t.basicVar k
  let toward (side : Side) : Option (Block m n) :=
    ((p.boundsOf j).get side).map fun bound =>
      ⟨(bound - z.get j) / r, j, some (k, side)⟩
  if 0 < r then toward .upper else if r < 0 then toward .lower else none

/-- Whether a block comes before another one: it is nearer, or its variable is smaller. -/
def Block.precedes (b c : Block m n) : Bool :=
  b.distance < c.distance || (b.distance == c.distance && b.blocking < c.blocking)

/-- The first block of a move. The moving variable itself stops at its other end. -/
def firstBlock? (p : StandardForm m n) (t : Tableau m n) (entering : Fin (n + m))
    (increase : Bool) : Option (Block m n) :=
  let z := values p t
  let own := (p.boundsOf entering).width?.map fun width => (⟨width, entering, none⟩ : Block m n)
  (List.finRange m).foldl (fun best k =>
    match rowBlock? p t z entering increase k with
    | none => best
    | some b =>
      match best with
      | some c => if b.precedes c then some b else best
      | none => some b) own

/-- The direction of the columns when a variable moves by one unit. -/
def ray (t : Tableau m n) (entering : Fin (n + m)) (increase : Bool) : Vector Rat n :=
  let start : Vector Rat (n + m) :=
    replaceAt (Vector.replicate (n + m) 0) entering (if increase then 1 else -1)
  let direction := (List.finRange m).foldl (fun z k =>
    replaceAt z (t.basicVar k) (t.rate entering increase k)) start
  Vector.ofFn fun j => direction.get (Fin.castAdd m j)

/-- Move a variable to its other end. -/
def flip (t : Tableau m n) (j : Fin (n + m)) : Tableau m n :=
  { t with status := replaceAt t.status j (if t.statusOf j = .lower then .upper else .lower) }

/-- How the second phase ends. -/
inductive Optimized (n : Nat) where
  /-- No variable improves the objective. -/
  | optimal
  /-- The objective improves without end in a direction. -/
  | unbounded (ray : Vector Rat n)
  /-- The budget is used up. -/
  | stopped (limit : Limit)

/-- A step of the second phase. -/
def optimizeStep (p : StandardForm m n) (budget : Budget) (s : Progress m n) :
    Progress m n ⊕ Optimized n :=
  let t := s.tableau
  match t.improving? p with
  | none => .inr .optimal
  | some entering =>
    match budget.exhausted? s.iterations with
    | some limit => .inr (.stopped limit)
    | none =>
      let increase : Bool := (reducedCosts p t).get entering < 0
      match t.firstBlock? p entering increase with
      | none => .inr (.unbounded (t.ray entering increase))
      | some ⟨_, _, none⟩ => .inl ⟨t.flip entering, s.iterations + 1⟩
      | some ⟨_, _, some (k, side)⟩ => .inl ⟨t.pivot k entering side.status, s.iterations + 1⟩

end Tableau

/-! ## Both phases -/

/-- How a solve ends. -/
inductive Outcome (m n : Nat) where
  | optimal
  /-- The optimum is above the objective limit. -/
  | objectiveLimit
  | infeasible (multipliers : Vector Rat m)
  | unbounded (ray : Vector Rat n)
  | stopped (limit : Limit)
  /-- A phase repeated itself, which Bland's rule prevents. -/
  | cycled

namespace StandardForm

variable {m n : Nat}

/-- Run the first phase from a tableau. -/
def restore (p : StandardForm m n) (budget : Budget) (s : Progress m n) :
    Progress m n × Option (Tableau.Restored m) :=
  iterate (Tableau.restoreStep p budget) (s.maxSteps + 1) s

/-- Run the second phase from a feasible tableau. -/
def optimize (p : StandardForm m n) (budget : Budget) (s : Progress m n) :
    Progress m n × Option (Tableau.Optimized n) :=
  iterate (Tableau.optimizeStep p budget) (s.maxSteps + 1) s

/-- Whether the objective at a tableau is above a limit. -/
def exceeds (p : StandardForm m n) (limit : Option Rat) (t : Tableau m n) : Bool :=
  limit.any (· < p.objective (t.values p))

/-- Run both phases from a tableau. An optimum above the objective limit is reported as such. -/
def run (p : StandardForm m n) (budget : Budget) (objectiveLimit : Option Rat)
    (start : Tableau m n) : Progress m n × Outcome m n :=
  let (s, restored) := p.restore budget ⟨start, 0⟩
  match restored with
  | none => (s, .cycled)
  | some (.infeasible y) => (s, .infeasible y)
  | some (.stopped limit) => (s, .stopped limit)
  | some .feasible =>
    let (s, optimized) := p.optimize budget s
    match optimized with
    | none => (s, .cycled)
    | some (.unbounded ray) => (s, .unbounded ray)
    | some (.stopped limit) => (s, .stopped limit)
    | some .optimal => (s, if p.exceeds objectiveLimit s.tableau then .objectiveLimit else .optimal)

end StandardForm

end CertifiedLp
