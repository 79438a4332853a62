import Mathlib
import CertifiedLp.Proofs.Relaxation.Limiting
import CertifiedLp.Proofs.Relaxation.Posing
import CertifiedLp.Proofs.Relaxation.Verdicts
import CertifiedLp.Proofs.Simplex.Termination

/-!
# Linear programs that are settled

With the exact simplex solver, a solve settles the active linear program: it proves the optimum, or that
there is no feasible point, and it leaves only an unbounded linear program to another method. The solver
ends, its answer is right, and the certificate for a right answer is accepted.

This needs a linear program that the solver can hold, with every coefficient between active lines in
both lists (`WellPosed`). A coefficient that only one of the lists has is not known to the solver, so
that it may answer for another linear program.
-/

namespace CertifiedLp

open Extended (finite)

namespace Simplex

variable {s t : Simplex}

theorem answer?_eq (s : Simplex) : Solver.answer? s = s.answer? := by
  have hreports : Solver.reports s = fun answer => s.answer? == some answer := rfl
  rw [Solver.answer?, hreports]
  cases s.answer? with
  | none => rfl
  | some answer => cases answer <;> rfl

theorem answer?_solve (s : Simplex) : s.solve.answer? = (Ending.ofOutcome s.run.2).answer? := rfl

/-- Nothing but statuses and parameters differs, so the linear program is the same. -/
theorem sameContents_parameters (s : Simplex) (parameters : Parameters) :
    SameContents s { s with parameters } := ⟨rfl, rfl⟩

end Simplex

namespace Relaxation

open Simplex (SameContents)

variable {lp t u : Relaxation Simplex} {s : Simplex} {a : Approximation} {write : Bool}
variable {E : LpError → Relaxation Simplex → Prop}

/-! ## Configuring the solver -/

/-- The solver has the same linear program as before, and the limits of the relaxation. A limit on time
is not used up. -/
structure Prepared (u : Relaxation Simplex) (s : Simplex) : Prop where
  contents : SameContents u.solver s
  objectiveLimit : s.parameters.objectiveLimit = u.objectiveLimit
  iterationLimit : u.settings.iterationLimit = none → s.parameters.iterationLimit = none
  timeLimit : ∀ seconds, s.parameters.timeLimit.finite? = some seconds → 0 < seconds

theorem pos_of_remainingTime? {limit : Option Binary64} {time : Extended} {seconds : Rat}
    (h : remainingTime? limit = some time) (hseconds : time.finite? = some seconds) : 0 < seconds := by
  obtain rfl := Extended.finite?_eq_some.mp hseconds
  rw [remainingTime?.eq_def] at h
  split at h
  · cases h
  · split at h
    · cases h
    · split at h
      · cases h
      · next hpos =>
        cases h
        rw [← Extended.lt_iff_not_le] at hpos
        exact Extended.finite_lt_finite.mp hpos

/-- A basis of an approximation has a status for every line of the solver. -/
theorem size_of_basis? {columns : Array ColumnRef} {rows : Array RowRef} {basis : Basis}
    (h : a.basis? columns rows = some basis) :
    basis.columns.size = columns.size ∧ basis.rows.size = rows.size := by
  simp only [Approximation.basis?, Option.bind_eq_bind, Option.bind_eq_some_iff] at h
  obtain ⟨columns', hcolumns, rows', hrows, heq⟩ := h
  cases heq
  exact ⟨SatisfiesM_Option_eq.mp (Array.size_mapM ..) _ hcolumns,
    SatisfiesM_Option_eq.mp (Array.size_mapM ..) _ hrows⟩

/-- A basis of the right size is taken, and only the statuses change. -/
theorem ends_setBasis_taken {basis : Basis} (hcolumns : basis.columns.size = s.nrColumns)
    (hrows : basis.rows.size = s.nrRows) {E : SolverError → Simplex → Prop} :
    Ends (Solver.setBasis basis) s (fun _ t => t = s.withBasis basis) E := by
  change Ends (Simplex.setBasis basis) s _ _
  rw [Simplex.setBasis, Ends.bind_iff, Ends.get_iff, Ends.ite_iff]
  exact ⟨fun _ => rfl, fun h => (h (by simp [hcolumns, hrows])).elim⟩

/-- The start of the next solve is chosen, which concerns neither the linear program nor limits. -/
theorem ends_chooseStart (hcolumns : u.matrix.solverColumns.size = s.nrColumns)
    (hrows : u.matrix.solverRows.size = s.nrRows) (a : Approximation) :
    Ends (chooseStart a) { u with solver := s }
      (fun _ t => ∃ s', t = { u with solver := s' } ∧ SameContents s s' ∧
        s'.parameters.timeLimit = s.parameters.timeLimit) E := by
  have hbasis : (if u.settings.fromScratch then none
      else a.basis? u.matrix.solverColumns u.matrix.solverRows) = u.startBasis? a := rfl
  rw [chooseStart, Ends.bind_iff, Ends.get_iff]
  dsimp only
  rw [hbasis]
  cases hstart : u.startBasis? a with
  | none => exact ⟨_, rfl, Simplex.sameContents_parameters _ _, rfl⟩
  | some basis =>
    have hsome : a.basis? u.matrix.solverColumns u.matrix.solverRows = some basis := by
      rw [startBasis?] at hstart
      split at hstart
      · cases hstart
      · exact hstart
    obtain ⟨hsizeColumns, hsizeRows⟩ := size_of_basis? hsome
    rw [Ends.bind_iff, ends_onSolver]
    refine (ends_setBasis_taken (hsizeColumns.trans hcolumns) (hsizeRows.trans hrows)).mono_ok ?_
    rintro _ _ rfl
    exact ⟨_, rfl, IsTrans.trans _ _ _ (Simplex.sameContents_withBasis s basis)
      (Simplex.sameContents_parameters _ _), rfl⟩

/-- The code of no limit is taken as such. -/
theorem ends_setIterationLimit_taken (limit : Option Nat) (s : Simplex)
    {E : SolverError → Simplex → Prop} :
    Ends (Solver.setInt .iterationLimit (iterationLimitCode limit)) s
      (fun _ t => ∃ limit', t = { s with parameters := { s.parameters with iterationLimit := limit' } } ∧
        (limit = none → limit' = none)) E := by
  change Ends (Simplex.setInt .iterationLimit (iterationLimitCode limit)) s _ _
  rw [Simplex.setInt.eq_def]
  dsimp only
  rw [Ends.ite_iff, Ends.ite_iff]
  refine ⟨fun _ => ⟨none, rfl, fun _ => rfl⟩, fun hcode => ⟨fun hneg => ?_, fun _ => ?_⟩⟩
  · cases limit with
    | none => exact (hcode rfl).elim
    | some n =>
      rw [iterationLimitCode, noLimit] at hneg
      omega
  · refine ⟨_, rfl, fun hnone => ?_⟩
    rw [hnone] at hcode
    exact (hcode rfl).elim

/-- The solver is brought up to date and configured, unless the time is used up. -/
theorem ends_prepareSolve_of_sync (hsync : sync.run.run lp = (.ok (), u))
    (hcolumns : u.matrix.solverColumns.size = u.solver.nrColumns)
    (hrows : u.matrix.solverRows.size = u.solver.nrRows) (a : Approximation) :
    Ends (prepareSolve a) lp
      (fun prepared t => (prepared = none ∧ remainingTime? u.settings.timeLimit = none ∧ t = u) ∨
        (prepared = some u.objectiveLimit ∧ ∃ s, t = { u with solver := s } ∧ Prepared u s)) E := by
  have hends : Ends sync lp (fun _ t => t = u) E := by
    unfold Ends
    rw [hsync]
  rw [prepareSolve, Ends.bind_iff]
  refine hends.mono_ok ?_
  rintro _ _ rfl
  rename_i u
  rw [Ends.bind_iff, Ends.get_iff]
  split
  · next htime => exact .inl ⟨rfl, htime, rfl⟩
  next time htime =>
  rw [Ends.bind_iff, ends_onSolver]
  let s₁ : Simplex := { u.solver with parameters := { u.solver.parameters with timeLimit := time } }
  change Ends _ { u with solver := s₁ } _ _
  rw [Ends.bind_iff]
  refine (ends_chooseStart (s := s₁) hcolumns hrows a).mono_ok ?_
  rintro _ _ ⟨s₂, rfl, hcontents, htimeLimit⟩
  rw [Ends.bind_iff, Ends.get_iff, Ends.bind_iff, ends_onSolver]
  let s₃ : Simplex :=
    { s₂ with parameters := { s₂.parameters with objectiveLimit := u.objectiveLimit } }
  change Ends _ { u with solver := s₃ } _ _
  rw [Ends.bind_iff, Ends.get_iff, Ends.bind_iff, ends_onSolver]
  refine (ends_setIterationLimit_taken u.settings.iterationLimit s₃).mono_ok ?_
  rintro _ _ ⟨limit, rfl, hlimit⟩
  refine .inr ⟨rfl, _, rfl, ⟨hcontents.columns, hcontents.rows⟩, rfl, hlimit, fun seconds hseconds => ?_⟩
  have heq : s₂.parameters.timeLimit = time := htimeLimit
  exact pos_of_remainingTime? htime (heq ▸ hseconds)

/-- The first attempt succeeds. -/
theorem ends_runSolver_solve (lp : Relaxation Simplex) :
    Ends runSolver lp
      (fun solved t => solved = true ∧ t = { lp with solver := lp.solver.solve }) E := by
  rw [runSolver, Ends.bind_iff, succeeds, Ends.tryCatch_iff, Ends.bind_iff, ends_onSolver]
  exact ⟨rfl, rfl⟩

/-! ## Conclusions -/

section Concluding

variable {σ : Type} [Solver σ] {lp : Relaxation σ} {solution : Solution} {basis : Basis}
variable {limit : Extended} {E : LpError → Relaxation σ → Prop}

/-- An answer is noted before it is certified. -/
def withAnswer (lp : Relaxation σ) (answer : Answer) : Relaxation σ :=
  { lp with status := answer.status, flags := { lp.flags with solved := true } }

theorem Certifiable.withAnswer (h : lp.Certifiable) (answer : Answer) :
    (lp.withAnswer answer).Certifiable := h.congr rfl rfl rfl

theorem Tight.withAnswer (h : lp.Tight solution) (answer : Answer) :
    (lp.withAnswer answer).Tight solution :=
  ⟨h.isFinite, h.objective, h.sides, h.dual, h.bounds, h.reducedCost⟩

theorem Refutation.withAnswer {multipliers : Array Extended} {side : RowRef → Rat}
    {bound : ColumnRef → Rat} (h : lp.Refutation multipliers side bound) (answer : Answer) :
    (lp.withAnswer answer).Refutation multipliers side bound :=
  ⟨h.isFinite, h.sides, h.bounds, h.gap⟩

/-- The status of an optimum, given the objective limit. -/
def optimumStatus (limit objective : Extended) : LpStatus :=
  if limit.isFinite && limit < objective then .objectiveLimit else .optimal

theorem Tight.ends_conclude_optimal (hs : lp.Tight solution) (h : lp.Certifiable)
    (hsolution : Solver.solution lp.solver = .ok solution) (hbasis : Solver.basis lp.solver = .ok basis)
    (limit : Extended) (a : Approximation) (write : Bool) :
    Ends (conclude .optimal limit a write) lp
      (fun out t => out.1 = ⟨optimumStatus limit solution.objective, false, true, false⟩ ∧
        t.solverObjective = solution.objective) fun _ _ => False := by
  rw [conclude, Ends.bind_iff, Ends.modify_iff, Ends.bind_iff, certify, Ends.bind_iff]
  refine ((hs.withAnswer .optimal).ends_acceptSolution (h.withAnswer .optimal) hsolution hbasis
    (fun _ hl => by cases hl) a write).mono_ok ?_
  rintro ⟨_, a'⟩ _ ⟨rfl, m, flags, -, rfl⟩
  rw [Ends.bind_iff, Ends.get_iff]
  dsimp only
  rw [optimumStatus]
  split <;> exact ⟨rfl, rfl⟩

theorem Tight.ends_conclude_objectiveLimit (hs : lp.Tight solution) (h : lp.Certifiable)
    (hsolution : Solver.solution lp.solver = .ok solution) (hbasis : Solver.basis lp.solver = .ok basis)
    (hlimit : limit ≤ solution.objective) (a : Approximation) (write : Bool) :
    Ends (conclude .objectiveLimit limit a write) lp
      (fun out t => out.1 = ⟨.objectiveLimit, false, true, false⟩ ∧
        t.solverObjective = solution.objective) fun _ _ => False := by
  rw [conclude, Ends.bind_iff, Ends.modify_iff, Ends.bind_iff, certify, Ends.bind_iff]
  refine ((hs.withAnswer .objectiveLimit).ends_acceptSolution (h.withAnswer .objectiveLimit)
    hsolution hbasis (fun l hl => Option.some.inj hl ▸ hlimit) a write).mono_ok ?_
  rintro ⟨_, a'⟩ _ ⟨rfl, m, flags, -, rfl⟩
  exact ⟨rfl, rfl⟩

theorem Refutation.ends_conclude {multipliers : Array Extended} {side : RowRef → Rat}
    {bound : ColumnRef → Rat} (hr : lp.Refutation multipliers side bound) (h : lp.Certifiable)
    (hfarkas : Solver.farkas lp.solver = .ok multipliers) (limit : Extended) (a : Approximation)
    (write : Bool) :
    Ends (conclude .infeasible limit a write) lp
      (fun out _ => out.1 = ⟨.infeasible, false, true, false⟩) fun _ _ => False := by
  rw [conclude, Ends.bind_iff, Ends.modify_iff, Ends.bind_iff, certify, Ends.bind_iff]
  refine (((hr.withAnswer .infeasible).ends_acceptFarkas (h.withAnswer .infeasible) hfarkas a
    write).and (remembers_acceptFarkas (p := False) a write _)).mono ?_ fun _ _ ht => ht.1
  rintro ⟨_, a'⟩ t ⟨rfl, hkept⟩
  have hstatus : t.status = .infeasible := hkept.status_eq
  rw [Ends.pure_iff, Ends.bind_iff, Ends.get_iff, hstatus]
  rfl

/-- An unbounded ray is left to another method, and a limit of the solver proves nothing. -/
theorem ends_conclude_unbounded (lp : Relaxation σ) (limit : Extended) (a : Approximation)
    (write : Bool) :
    Ends (conclude .unbounded limit a write) lp
      (fun out _ => out.1 = ⟨.notSolved, false, false, true⟩) E := rfl

theorem ends_conclude_iterationLimit (lp : Relaxation σ) (limit : Extended) (a : Approximation)
    (write : Bool) :
    Ends (conclude .iterationLimit limit a write) lp
      (fun out _ => out.1 = ⟨.iterationLimit, false, false, false⟩) E := rfl

end Concluding

/-! ## What is settled -/

/-- A number is the smallest objective value of a feasible point. -/
structure IsOptimum (lp : Relaxation Simplex) (objective : Extended) : Prop where
  attained : ∃ x, lp.IsFeasible x ∧ lp.costAt x = objective
  least : ∀ x, lp.IsFeasible x → objective ≤ lp.costAt x

/-- Feasible points have arbitrarily small objective values. -/
def IsUnbounded (lp : Relaxation Simplex) : Prop :=
  ∀ bound : Rat, ∃ x, lp.IsFeasible x ∧ lp.costAt x < finite bound

/-- The result of a solve and the objective value after it say what is true of the active linear program
that was solved. Nothing is said only where a limit was reached. -/
inductive Settles (lp : Relaxation Simplex) (result : SolveResult) (objective : Extended) : Prop where
  /-- The optimum is proved. It may be above the objective limit. -/
  | optimum (h : lp.IsOptimum objective)
      (hresult : result = ⟨optimumStatus lp.objectiveLimit objective, false, true, false⟩)
  /-- It is proved that there is no feasible point. -/
  | infeasible (h : ∀ x, ¬ lp.IsFeasible x) (hresult : result = ⟨.infeasible, false, true, false⟩)
  /-- The linear program is unbounded, which is for another method to prove. -/
  | unbounded (h : lp.IsUnbounded) (hresult : result = ⟨.notSolved, false, false, true⟩)
  | iterationLimit (h : lp.settings.iterationLimit ≠ none)
      (hresult : result = ⟨.iterationLimit, false, false, false⟩)
  | timeLimit (h : remainingTime? lp.settings.timeLimit = none)
      (hresult : result = ⟨.timeLimit, false, false, false⟩)

namespace Posed

variable (h : u.Posed s) {x : Fin s.nrColumns → Rat} {y : Fin s.nrRows → Rat}

include h

theorem isOptimum (hpair : s.OptimalPair x y) : u.IsOptimum (finite (s.costAt x)) where
  attained := by
    obtain ⟨x', hx'⟩ := h.exists_placedIn x
    refine ⟨x', (h.isFeasible_iff x').mpr (hx' ▸ hpair.toIsFeasible), ?_⟩
    rw [h.certifiable.costAt_eq, h.cost_eq, hx']
  least x' hx' := by
    rw [h.certifiable.costAt_eq, h.cost_eq, Extended.finite_le_finite]
    exact hpair.costAt_le ((h.isFeasible_iff x').mp hx')

theorem isUnbounded {r : Fin s.nrColumns → Rat} (hx : s.IsFeasible x) (hr : s.Improves r) :
    u.IsUnbounded := by
  intro bound
  obtain ⟨z, hz, hcost⟩ := hr.exists_costAt_lt hx bound
  obtain ⟨x', hx'⟩ := h.exists_placedIn z
  refine ⟨x', (h.isFeasible_iff x').mpr (hx' ▸ hz), ?_⟩
  rw [h.certifiable.costAt_eq, h.cost_eq, hx', Extended.finite_lt_finite]
  exact hcost

theorem not_isFeasible {side : Fin s.nrRows → Rat} {bound : Fin s.nrColumns → Rat}
    (hrefutes : s.Refutes y side bound) (x' : ColumnRef → Rat) : ¬ u.IsFeasible x' := fun hx' =>
  hrefutes.not_isFeasible _ ((h.isFeasible_iff x').mp hx')

end Posed

/-- A relaxation after its solver was run, before the answer is looked at. -/
def ran (u : Relaxation Simplex) (s : Simplex) : Relaxation Simplex :=
  { u with solver := s.solve, nrSolves := u.nrSolves + 1 }

theorem Certifiable.ran (h : u.Certifiable) (s : Simplex) : (u.ran s).Certifiable :=
  h.congr rfl rfl rfl

/-- An answer is taken over as it is, unless it says that the objective limit is reached while the
objective value is below it. -/
theorem ends_takeAnswer_ran {answer : Answer} {limit : Extended}
    (hanswer : (Simplex.Ending.ofOutcome s.run.2).answer? = some answer)
    (hlimit : answer = .objectiveLimit →
      ¬ finite (s.costAt (Simplex.columnsOf s.lastValues)) < limit) :
    Ends (takeAnswer limit) (u.ran s) (fun taken t => taken = answer ∧ t = u.ran s) E := by
  have hsolver : Solver.answer? (u.ran s).solver = some answer :=
    (Simplex.answer?_eq _).trans ((Simplex.answer?_solve s).trans hanswer)
  rw [takeAnswer, Ends.bind_iff, Ends.get_iff, hsolver]
  cases answer with
  | objectiveLimit =>
    have hobjective : Solver.objectiveValue (u.ran s).solver =
        .ok (finite (s.costAt (Simplex.columnsOf s.lastValues))) := s.objectiveValue_solve
    rw [Ends.bind_iff, ends_askSolver_iff, hobjective]
    refine ⟨fun _ hvalue => ?_, fun _ he => by cases he⟩
    cases hvalue
    rw [if_neg (hlimit rfl)]
    exact ⟨rfl, rfl⟩
  | _ => exact ⟨rfl, rfl⟩

/-! ## A whole solve -/

theorem Tight.ran {solution : Solution} (h : u.Tight solution) (s : Simplex) :
    (u.ran s).Tight solution :=
  ⟨h.isFinite, h.objective, h.sides, h.dual, h.bounds, h.reducedCost⟩

theorem Refutation.ran {multipliers : Array Extended} {side : RowRef → Rat}
    {bound : ColumnRef → Rat} (h : u.Refutation multipliers side bound) (s : Simplex) :
    (u.ran s).Refutation multipliers side bound :=
  ⟨h.isFinite, h.sides, h.bounds, h.gap⟩

namespace Prepared

variable (hs : Prepared u s) (hu : u.Posed s)

include hs hu

/-- The solver does not cycle, and reaches no limit on time. -/
theorem exists_answer :
    ∃ answer, (Simplex.Ending.ofOutcome s.run.2).answer? = some answer ∧ answer ≠ .timeLimit ∧
      (answer = .iterationLimit → u.settings.iterationLimit ≠ none) := by
  obtain ⟨hcycled, hstopped⟩ := StandardForm.run_terminates s.budget
    (Simplex.finiteEnd? s.parameters.objectiveLimit) s.valid_startTableau hu.uncrossed.ordered
  change s.run.2 ≠ .cycled at hcycled
  change ∀ limit, s.run.2 = .stopped limit → _ at hstopped
  cases houtcome : s.run.2 with
  | cycled => exact (hcycled houtcome).elim
  | stopped limit =>
    obtain ⟨iterations, hexhausted⟩ := hstopped limit houtcome
    have hseconds : s.budget.seconds.any (· ≤ 0) = false := by
      refine Bool.eq_false_iff.mpr fun hany => ?_
      obtain ⟨seconds, hseconds, hle⟩ := (Option.any_eq_true _ _).mp hany
      exact absurd (of_decide_eq_true hle) (not_le.mpr (hs.timeLimit seconds hseconds))
    rw [Budget.exhausted?, hseconds] at hexhausted
    split at hexhausted
    · next hiterations =>
      cases hexhausted
      refine ⟨.iterationLimit, rfl, by simp, fun _ hnone => ?_⟩
      have hbudget : s.budget.iterations = none := hs.iterationLimit hnone
      rw [hbudget] at hiterations
      cases hiterations
    · cases hexhausted
  | optimal => exact ⟨.optimal, rfl, by simp, by simp⟩
  | objectiveLimit => exact ⟨.objectiveLimit, rfl, by simp, by simp⟩
  | infeasible y => exact ⟨.infeasible, rfl, by simp, by simp⟩
  | unbounded r => exact ⟨.unbounded, rfl, by simp, by simp⟩

omit hs in
/-- Without improving variables, the last tableau has an optimum and a tight solution. -/
theorem optimum_last (hprimal : s.standardForm.Ordered → s.lastTableau.Primal s.standardForm)
    (himproving : s.lastTableau.improving? s.standardForm = none) :
    u.IsOptimum (finite (s.costAt (Simplex.columnsOf s.lastValues))) ∧
      ∃ solution, s.solve.solution = .ok solution ∧
        solution.objective = finite (s.costAt (Simplex.columnsOf s.lastValues)) ∧
        (u.ran s).Tight solution :=
  have hpair := Simplex.optimalPair_last hu.uncrossed (hprimal hu.uncrossed.ordered) himproving
  ⟨hu.isOptimum hpair, _, s.solution_solve, rfl, (hu.tight hpair rfl rfl rfl).ran s⟩

omit hu in
/-- The objective limit is reached only if it is below the optimum. -/
theorem limit_lt (hexceeds : s.standardForm.exceeds
      (Simplex.finiteEnd? s.parameters.objectiveLimit) s.lastTableau = true) :
    ∃ limit, u.objectiveLimit = finite limit ∧ limit < s.costAt (Simplex.columnsOf s.lastValues) := by
  obtain ⟨limit, hlimit, -, hlt⟩ := s.exceeds_iff.mp hexceeds
  exact ⟨limit, hs.objectiveLimit.symm.trans hlimit, hlt⟩

/-- However the solver ended, its answer leads to a result that is right. -/
theorem ends_conclude {answer : Answer}
    (hanswer : (Simplex.Ending.ofOutcome s.run.2).answer? = some answer)
    (htime : answer ≠ .timeLimit)
    (hiterations : answer = .iterationLimit → u.settings.iterationLimit ≠ none)
    (a : Approximation) (write : Bool) :
    Ends (conclude answer u.objectiveLimit a write) (u.ran s)
      (fun out t => u.Settles out.1 t.solverObjective) fun _ _ => False := by
  have hcertifiable := hu.certifiable.ran s
  have hends := s.ends_lastTableau
  cases houtcome : s.run.2 with
  | optimal =>
    rw [houtcome] at hanswer hends
    cases hanswer
    obtain ⟨hprimal, himproving, -⟩ := hends
    obtain ⟨hoptimum, solution, hsolution, hobjective, htight⟩ :=
      optimum_last hu hprimal himproving
    rw [← hobjective] at hoptimum
    refine (htight.ends_conclude_optimal hcertifiable hsolution rfl _ a write).mono_ok ?_
    rintro out t ⟨hout, ht⟩
    exact ht ▸ .optimum hoptimum hout
  | objectiveLimit =>
    rw [houtcome] at hanswer hends
    cases hanswer
    obtain ⟨hprimal, himproving, hexceeds⟩ := hends
    obtain ⟨hoptimum, solution, hsolution, hobjective, htight⟩ :=
      optimum_last hu hprimal himproving
    obtain ⟨limit, hlimit, hlt⟩ := hs.limit_lt hexceeds
    rw [← hobjective] at hoptimum
    have hle : u.objectiveLimit ≤ solution.objective := by
      rw [hlimit, hobjective]
      exact Extended.finite_le_finite.mpr hlt.le
    refine (htight.ends_conclude_objectiveLimit hcertifiable hsolution rfl hle a write).mono_ok ?_
    rintro out t ⟨hout, ht⟩
    refine ht ▸ .optimum hoptimum ?_
    rw [hout, optimumStatus, hlimit, hobjective, if_pos (by simpa [Extended.isFinite] using hlt)]
  | infeasible y =>
    rw [houtcome] at hanswer hends
    cases hanswer
    obtain ⟨v, hv, hnone, rfl⟩ := hends
    obtain ⟨side, bound, hrefutes⟩ := Simplex.refutes_multipliers hv hnone
    obtain ⟨side', bound', hrefutation⟩ := hu.refutation hrefutes
    refine ((hrefutation.ran s).ends_conclude hcertifiable (Simplex.farkas_solve houtcome) _ a
      write).mono_ok ?_
    rintro out t hout
    exact .infeasible (hu.not_isFeasible hrefutes) hout
  | unbounded r =>
    rw [houtcome] at hanswer hends
    cases hanswer
    obtain ⟨hprimal, entering, himproving, hblock, rfl⟩ := hends
    have hfeasible : s.IsFeasible (Simplex.columnsOf s.lastValues) :=
      Simplex.isFeasible_columnsOf (hprimal hu.uncrossed.ordered).feasible
    refine (ends_conclude_unbounded _ _ a write).mono_ok fun out t hout => ?_
    exact .unbounded (hu.isUnbounded hfeasible (Simplex.improves_ray himproving hblock)) hout
  | stopped limit =>
    rw [houtcome] at hanswer
    cases limit with
    | time =>
      cases hanswer
      exact (htime rfl).elim
    | iterations =>
      cases hanswer
      exact (ends_conclude_iterationLimit _ _ a write).mono_ok fun out t hout =>
        .iterationLimit (hiterations rfl) hout
  | cycled =>
    rw [houtcome] at hanswer
    cases hanswer

/-- What a solve makes of the answer is right, and it does not fail. -/
theorem ends_useAnswer (write : Bool) (a : Approximation) :
    Ends (useAnswer write a u.objectiveLimit) { u with solver := s.solve }
      (fun out t => u.Settles out.1 t.solverObjective) fun _ _ => False := by
  obtain ⟨answer, hanswer, htime, hiterations⟩ := hs.exists_answer hu
  have hlimit (hreached : answer = .objectiveLimit) :
      ¬ finite (s.costAt (Simplex.columnsOf s.lastValues)) < u.objectiveLimit := by
    have houtcome : s.run.2 = .objectiveLimit :=
      (s.reports_solve .objectiveLimit).mp (beq_iff_eq.mpr (hanswer.trans (congrArg some hreached)))
    have hends := s.ends_lastTableau
    rw [houtcome] at hends
    obtain ⟨limit, hlimit, hlt⟩ := hs.limit_lt hends.2.2
    rw [hlimit, Extended.finite_lt_finite]
    exact hlt.le.not_gt
  rw [useAnswer, Ends.bind_iff, Ends.modify_iff, Ends.bind_iff]
  refine (ends_takeAnswer_ran hanswer hlimit).mono_ok ?_
  rintro _ _ ⟨rfl, rfl⟩
  rw [Ends.bind_iff]
  refine (hs.ends_conclude hu hanswer htime hiterations a write).mono_ok fun out t ht => ?_
  exact Ends.bind_iff.mpr (Ends.get_iff.mpr (Ends.ite_iff.mpr ⟨fun _ => ht, fun _ => ht⟩))

end Prepared

/-- Once everything was told, a solve of a well-posed linear program returns what is true of it. -/
theorem Faithful.ends_solveAnd (h : lp.Faithful) (hsync : sync.run.run lp = (.ok (), u))
    (hwell : u.WellPosed) (write : Bool) (a : Approximation) :
    Ends (solveAnd write a) lp (fun out t => u.Settles out.1 t.solverObjective)
      fun _ _ => False := by
  obtain ⟨hfaithful, hsynced⟩ := h.ends_sync.of_ok hsync
  have hposed := hfaithful.posed hsynced hwell
  have hmatched := hfaithful.tracked.matched hsynced
  have hcolumns : u.matrix.solverColumns.size = u.solver.nrColumns := by
    rw [hmatched.columns]
    exact hposed.upToDate.nrColumns.symm
  have hrows : u.matrix.solverRows.size = u.solver.nrRows := by
    rw [hmatched.rows]
    exact hposed.upToDate.nrRows.symm
  rw [solveAnd_phases, Ends.bind_iff]
  refine (ends_prepareSolve_of_sync hsync hcolumns hrows a).mono_ok ?_
  rintro _ _ (⟨rfl, htime, rfl⟩ | ⟨rfl, s, rfl, hs⟩)
  · exact .timeLimit htime rfl
  · rw [runPrepared, Ends.bind_iff]
    refine (ends_runSolver_solve _).mono_ok ?_
    rintro _ _ ⟨rfl, rfl⟩
    exact hs.ends_useAnswer (hposed.of_sameContents hs.contents) write a

/-- Whatever was done to a relaxation on top of the simplex solver, a solve of a well-posed linear
program succeeds, from any basis, and returns what is true of the linear program. -/
theorem performAll_settles {solver : Simplex} {settings : Settings} {start : Relaxation Simplex}
    {actions : List Action} (hcreate : create solver settings = .ok start)
    (hactions : Throughout Permits start actions) (hunrejected : Throughout Unrejected start actions)
    (hsync : sync.run.run (start.performAll actions) = (.ok (), u)) (hwell : u.WellPosed)
    (write : Bool) (a : Approximation) :
    ∃ result a' t, (solveAnd write a).run.run (start.performAll actions) = (.ok (result, a'), t) ∧
      u.Settles result t.solverObjective := by
  have hfaithful := (faithful_create hcreate).performAll hactions hunrejected
  obtain ⟨⟨result, a'⟩, t, hrun, hsettles⟩ := (hfaithful.ends_solveAnd hsync hwell write a).exists_ok
  exact ⟨result, a', t, hrun, hsettles⟩

/-- A row keeps the only column at one at least. The column is one, at the cost of one. -/
example :
    let start : Relaxation Simplex := (blank .empty).after (setSettings .standard)
    let actions : List Action := [.createColumn smallProblem ⟨0⟩, .createRow "r" ⟨⟨1, .posInf⟩, 0⟩,
      .edit ⟨0⟩ ⟨0⟩ (.addInRow 1), .addColumn ⟨0⟩, .addRow ⟨0⟩]
    let lp := start.performAll actions
    Throughout Permits start actions ∧ Throughout Unrejected start actions ∧
      lp.accepts sync = true ∧ (lp.after sync).WellPosed ∧
      (lp.after (solveAnd false .empty)).solverObjective = 1 := by
  decide +kernel

/-- Without limits, everything but an unbounded linear program is settled by a certificate. -/
theorem Settles.provedBound {result : SolveResult} {objective : Extended}
    (h : u.Settles result objective) (hiterations : u.settings.iterationLimit = none)
    (htime : remainingTime? u.settings.timeLimit ≠ none) (hbounded : ¬ u.IsUnbounded) :
    result.provedBound = true ∧ result.needsRecovery = false := by
  cases h with
  | optimum _ hresult => exact hresult ▸ ⟨rfl, rfl⟩
  | infeasible _ hresult => exact hresult ▸ ⟨rfl, rfl⟩
  | unbounded hunbounded => exact (hbounded hunbounded).elim
  | iterationLimit hlimit => exact (hlimit hiterations).elim
  | timeLimit hlimit => exact (htime hlimit).elim

end Relaxation

end CertifiedLp
