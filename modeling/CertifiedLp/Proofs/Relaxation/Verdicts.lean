import Mathlib
import CertifiedLp.Proofs.Relaxation.Mirroring
import CertifiedLp.Proofs.Relaxation.Remembering

/-!
# Status and result of a solve

Whatever a solver answers, and wherever it fails, the values of the last solve count as values of the
linear program exactly if the status says that there was an answer. The result of a solve has the
status of the linear program, and says at most one thing about it: the solver failed with both
methods, or a bound is proved, or the answer could not be certified.
-/

namespace CertifiedLp

namespace Relaxation

variable {σ : Type} [Solver σ] {lp t : Relaxation σ} {p : Prop} {write : Bool}
variable {a : Approximation} {actions : List Action} {solver : σ} {settings : Settings}

/-! ## Status and flags -/

/-- The last solution counts exactly if there was an answer, and so does the one put aside. -/
structure Credible (lp : Relaxation σ) : Prop where
  solved : lp.flags.solved = lp.status.isSolved
  stored : ∀ s, lp.stored = some s → s.flags.solved = s.status.isSolved

theorem Remembers.credible (h : Remembers p lp t) (hlp : lp.Credible) : t.Credible where
  solved := by
    rcases h.outcome with ⟨hsolved, hstatus⟩ | ⟨-, hobsolete⟩
    · rw [hsolved, hstatus, hlp.solved]
    · rw [hobsolete.solved, hobsolete.status]
      rfl
  stored := h.stored ▸ hlp.stored

theorem credible_of_remembers {α : Type} {x : RelaxationM σ α} (h : Along (Remembers p) x) :
    Along (Preserves Credible) x := h.mono fun _ _ => Remembers.credible

theorem credible_modify {g : Relaxation σ → Relaxation σ}
    (h : ∀ lp, (g lp).flags.solved = lp.flags.solved ∧ (g lp).status = lp.status ∧
      (g lp).stored = lp.stored) : Along (Preserves Credible) (modify g : RelaxationM σ PUnit) :=
  .modify fun lp hlp => by
    obtain ⟨hsolved, hstatus, hstored⟩ := h lp
    exact ⟨by rw [hsolved, hstatus, hlp.solved], hstored ▸ hlp.stored⟩

/-- A larger cutoff bound may not be exceeded any more. -/
theorem credible_setCutoff (cutoff : Extended) :
    Along (Preserves Credible) (setCutoff cutoff : RelaxationM σ Unit) :=
  .get fun _ => .when (credible_of_remembers remembers_markUnsolved)
    (credible_modify fun _ => ⟨rfl, rfl, rfl⟩)

/-- What is put aside is the status and the flags as they are, which remain the same. -/
theorem ends_storeSolution (lp : Relaxation σ) :
    Ends storeSolution lp
      (fun _ t => ∃ u, Remembers False lp u ∧
        t = { u with stored := some ⟨lp.status, lp.solverObjective, lp.flags⟩ })
      fun _ t => Remembers False lp t := by
  have hcolumns (columns : Array ColumnRef) : Along (Remembers False) (forIn columns PUnit.unit
      fun c _ => do
        modifyMatrix (·.modifyColumn c Column.store)
        pure (ForInStep.yield PUnit.unit) : RelaxationM σ PUnit) :=
    .forIn_array (fun c _ => .bind (remembers_modifyMatrix _) fun _ => .pure) _
  have hrows (rows : Array RowRef) : Along (Remembers False) (forIn rows PUnit.unit fun r _ => do
        updateRow r Row.store
        pure (ForInStep.yield PUnit.unit) : RelaxationM σ PUnit) :=
    .forIn_array (fun r _ => .bind (remembers_updateRow r _) fun _ => .pure) _
  rw [storeSolution, Ends.bind_iff, Ends.get_iff, Ends.bind_iff]
  refine (hcolumns lp.columns lp).mono_ok fun _ t ht => ?_
  rw [Ends.bind_iff]
  refine (hrows lp.rows t).mono (fun _ u hu => ?_) fun _ _ h => IsTrans.trans _ _ _ ht h
  exact ⟨u, IsTrans.trans _ _ _ ht hu, rfl⟩

theorem credible_storeSolution : Along (Preserves Credible) (storeSolution : RelaxationM σ Unit) := by
  refine fun lp => (ends_storeSolution lp).mono ?_ fun _ _ h => h.credible
  rintro _ _ ⟨u, hu, rfl⟩ hlp
  refine ⟨(hu.credible hlp).solved, fun s hs => ?_⟩
  cases hs
  exact hlp.solved

/-- The status and the flags that were put aside belong together. -/
theorem credible_restoreSolution :
    Along (Preserves Credible) (restoreSolution : RelaxationM σ Unit) := by
  have hcolumns (columns : Array ColumnRef) : Along (Preserves Credible) (forIn columns PUnit.unit
      fun c _ => do
        modifyMatrix (·.modifyColumn c Column.restore)
        pure (ForInStep.yield PUnit.unit) : RelaxationM σ PUnit) :=
    .forIn_array (fun c _ => .bind (credible_of_remembers (remembers_modifyMatrix (p := False) _))
      fun _ => .pure) _
  have hrows (rows : Array RowRef) (latest : Nat) : Along (Preserves Credible) (forIn rows PUnit.unit
      fun r _ => do
        updateRow r (·.restore latest)
        pure (ForInStep.yield PUnit.unit) : RelaxationM σ PUnit) :=
    .forIn_array (fun r _ => .bind (credible_of_remembers (remembers_updateRow (p := False) r _))
      fun _ => .pure) _
  intro lp
  rw [restoreSolution, Ends.bind_iff, Ends.get_iff]
  cases hstored : lp.stored with
  | none => exact id
  | some stored =>
    have hforget (hlp : lp.Credible) : Credible { lp with stored := none } :=
      ⟨hlp.solved, fun _ hs => by cases hs⟩
    refine Ends.bind_iff.mpr (Ends.modify_iff.mpr (Ends.bind_iff.mpr ?_))
    refine (hcolumns lp.columns { lp with stored := none }).mono (fun _ t ht => ?_)
      fun _ _ h hlp => h (hforget hlp)
    rw [Ends.bind_iff]
    refine (hrows lp.rows lp.nrSolves t).mono (fun _ u hu hlp => ?_)
      fun _ _ h hlp => h (ht (hforget hlp))
    exact ⟨hlp.stored stored hstored, (hu (ht (hforget hlp))).stored⟩

theorem credible_startDive (store : Bool) :
    Along (Preserves Credible) (startDive store : RelaxationM σ Unit) := by
  refine .get fun lp => .ite .throw_bind ?_
  refine .bind (credible_of_remembers remembers_sync) fun _ => ?_
  refine .bind (along_askSolver _) fun snapshot => .get fun _ => ?_
  refine .ite ?_ (credible_modify fun _ => ⟨rfl, rfl, rfl⟩)
  exact .bind credible_storeSolution fun _ => credible_modify fun _ => ⟨rfl, rfl, rfl⟩

/-- Without a solution that was put aside, nothing is known after a dive. -/
theorem credible_endDive (problem : Problem) :
    Along (Preserves Credible) (endDive problem : RelaxationM σ Unit) := by
  have hforget (flags : Flags) : Along (Preserves Credible) (do
      markUnsolved
      modify ({ · with flags := { flags with solved := false } }) : RelaxationM σ Unit) :=
    fun _ hlp => ⟨rfl, hlp.stored⟩
  refine .get fun lp => ?_
  split
  · exact .throw
  next dive _ =>
  refine .bind (credible_modify fun _ => ⟨rfl, rfl, rfl⟩) fun _ => ?_
  have hsolver (call : SolverM σ Unit) : Along (Preserves Credible) (onSolver call) :=
    credible_of_remembers (remembers_onSolver (p := False) call)
  refine .bind (.tryCatch (credible_of_remembers (remembers_undoDive problem dive)) fun e => ?_)
    fun _ => ?_
  · exact .bind (credible_modify fun _ => ⟨rfl, rfl, rfl⟩) fun _ => .throw
  refine .bind (credible_modify fun _ => ⟨rfl, rfl, rfl⟩) fun _ => ?_
  refine .bind (.tryCatch (hsolver _) fun _ => .pure) fun _ => ?_
  exact .ite credible_restoreSolution (hforget dive.flags)

/-! ## Phases of a solve -/

/-- What a solve does first: it brings the solver up to date and configures it, and returns the
objective limit, unless the time is used up. -/
def prepareSolve (a : Approximation) : RelaxationM σ (Option Extended) := do
  sync
  match remainingTime? (← get).settings.timeLimit with
  | none => return none
  | some time =>
    onSolver (Solver.setReal .timeLimit time)
    chooseStart a
    let limit := (← get).objectiveLimit
    onSolver (Solver.setReal .objectiveLimit limit)
    onSolver (Solver.setInt .iterationLimit
      (iterationLimitCode (← get).settings.iterationLimit))
    return some limit

/-- What a solve does with the answer of the solver. -/
def useAnswer (write : Bool) (a : Approximation) (limit : Extended) :
    RelaxationM σ (SolveResult × Approximation) := do
  modify fun lp => { lp with nrSolves := lp.nrSolves + 1 }
  let answer ← takeAnswer limit
  let (result, a) ← conclude answer limit a write
  let lp ← get
  if write then return (result, { a with status := lp.status, solved := lp.flags.solved })
  else return (result, a)

/-- What a solve does after it is prepared. -/
def runPrepared (write : Bool) (a : Approximation) :
    Option Extended → RelaxationM σ (SolveResult × Approximation)
  | none => do
    modify fun lp => { lp with status := .timeLimit, flags := { lp.flags with solved := true } }
    return (⟨.timeLimit, false, false, false⟩, a)
  | some limit => do
    if ← runSolver then useAnswer write a limit
    else
      modify fun lp => { lp with status := .error, flags := { lp.flags with solved := false } }
      return (⟨.error, true, false, false⟩, a)

theorem solveAnd_phases (write : Bool) (a : Approximation) :
    (solveAnd write a : RelaxationM σ (SolveResult × Approximation)) =
      prepareSolve a >>= runPrepared write a := by
  simp only [solveAnd, prepareSolve, bind_assoc]
  refine congrArg (sync >>= ·) (funext fun _ => congrArg (get >>= ·) (funext fun lp => ?_))
  cases remainingTime? lp.settings.timeLimit with
  | none => rfl
  | some time => simp only [bind_assoc, pure_bind, runPrepared, useAnswer]

theorem remembers_prepareSolve (a : Approximation) :
    Along (Remembers True) (prepareSolve a : RelaxationM σ (Option Extended)) := by
  refine .bind remembers_sync fun _ => .get fun lp => ?_
  split
  · exact .pure
  · refine .bind (remembers_onSolver _) fun _ => ?_
    refine .bind (remembers_of_weighed (weighed_chooseStart respects_whatever a)) fun _ => ?_
    refine .get fun _ => .bind (remembers_onSolver _) fun _ => ?_
    exact .get fun _ => .bind (remembers_onSolver _) fun _ => .pure

/-! ## Both methods -/

/-- The dual simplex method fails, and the primal simplex method from scratch fails as well. -/
def BothFail (s : σ) : Prop :=
  ∃ e s₁ s₂ e' s₃, (Solver.solveDual : SolverM σ Unit).run.run s = (.error e, s₁) ∧
    (Solver.setInt .fromScratch 1 : SolverM σ Unit).run.run s₁ = (.ok (), s₂) ∧
    (Solver.solvePrimal : SolverM σ Unit).run.run s₂ = (.error e', s₃)

/-- A call succeeds or fails, and is told from the other case. -/
theorem ends_succeeds (call : SolverM σ Unit) (lp : Relaxation σ) :
    Ends (succeeds call) lp
      (fun b t => t = { lp with solver := t.solver } ∧
        (b = true ∧ call.run.run lp.solver = (.ok (), t.solver) ∨
          b = false ∧ ∃ e, call.run.run lp.solver = (.error e, t.solver)))
      fun _ _ => False := by
  rw [succeeds, Ends.tryCatch_iff, Ends.bind_iff, ends_onSolver]
  exact (Ends.self call lp.solver).mono (fun _ s hs => ⟨rfl, .inl ⟨rfl, hs⟩⟩)
    fun e s hs => ⟨rfl, .inr ⟨rfl, e, hs⟩⟩

/-- The solver is run in vain exactly if both methods fail. -/
theorem ends_runSolver (lp : Relaxation σ) :
    Ends runSolver lp (fun solved _ => solved = false ↔ BothFail lp.solver) fun _ _ => True := by
  rw [runSolver, Ends.bind_iff]
  refine (ends_succeeds Solver.solveDual lp).mono (fun b t₁ h₁ => ?_) fun _ _ h => h.elim
  obtain ⟨-, ⟨rfl, hdual⟩ | ⟨rfl, e, hdual⟩⟩ := h₁
  · rw [if_pos rfl, Ends.pure_iff]
    refine ⟨fun h => (Bool.noConfusion h), fun ⟨e, s₁, _, _, _, herror, _⟩ => ?_⟩
    rw [hdual] at herror
    cases herror
  rw [if_neg Bool.false_ne_true, Ends.bind_iff, ends_onSolver]
  refine (Ends.self _ _).mono (fun _ s₂ hset => ?_) fun _ _ _ => trivial
  refine (ends_succeeds Solver.solvePrimal { t₁ with solver := s₂ }).mono (fun b t₂ h₂ => ?_)
    fun _ _ _ => trivial
  obtain ⟨-, ⟨rfl, hprimal⟩ | ⟨rfl, e', hprimal⟩⟩ := h₂
  · refine ⟨fun h => (Bool.noConfusion h), fun ⟨_, _, _, _, _, hdual', hset', hprimal'⟩ => ?_⟩
    rw [hdual] at hdual'
    cases hdual'
    rw [hset] at hset'
    cases hset'
    rw [show Solver.solvePrimal.run.run s₂ = _ from hprimal] at hprimal'
    cases hprimal'
  · exact ⟨fun _ => ⟨e, t₁.solver, s₂, e', t₂.solver, hdual, hset, hprimal⟩, fun _ => rfl⟩

/-! ## Answers -/

/-- The solver gave an answer, which may still be looked at. -/
structure Answered (lp t : Relaxation σ) : Prop where
  solved : t.flags.solved = true
  status : t.status.isSolved = true
  stored : t.stored = lp.stored

theorem Answered.credible (h : Answered lp t) (hlp : lp.Credible) : t.Credible :=
  ⟨h.solved.trans h.status.symm, h.stored ▸ hlp.stored⟩

theorem Remembers.answered {u : Relaxation σ} (h : Remembers False t u) (ht : Answered lp t) :
    Answered lp u := by
  obtain ⟨hsolved, hstatus⟩ := h.outcome.resolve_right And.left
  exact ⟨hsolved.trans ht.solved, hstatus ▸ ht.status, h.stored.trans ht.stored⟩

theorem Remembers.status_eq (h : Remembers False lp t) : t.status = lp.status :=
  (h.outcome.resolve_right And.left).2

/-- Statuses that a proved bound can have. -/
def boundStatuses : List LpStatus := [.optimal, .objectiveLimit, .infeasible]

/-- A bound is proved only for three statuses. -/
theorem ends_certify {answer : Answer} (h : Answered lp t) (hanswer : t.status = answer.status)
    (limit : Extended) :
    Ends (certify answer limit a write) t
      (fun x u => Answered lp u ∧ (x.1 = some true → u.status ∈ boundStatuses))
      fun _ u => Answered lp u := by
  have haccept (answer : Option Extended) {s : LpStatus} (hs : t.status = s) :
      Ends (acceptSolution a write answer) t (fun _ u => Answered lp u ∧ u.status = s)
        fun _ u => Answered lp u :=
    (remembers_acceptSolution a write answer t).mono
      (fun _ _ hu => ⟨hu.answered h, hu.status_eq.trans hs⟩) fun _ _ hu => hu.answered h
  cases answer with
  | optimal =>
    refine Ends.bind_iff.mpr ((haccept none hanswer).mono_ok fun x u hu => ?_)
    refine Ends.bind_iff.mpr (Ends.get_iff.mpr (Ends.ite_iff.mpr ⟨fun _ => ?_, fun _ => ?_⟩))
    · exact ⟨⟨hu.1.solved, rfl, hu.1.stored⟩, fun _ => by simp [boundStatuses]⟩
    · exact ⟨hu.1, fun _ => by simp [boundStatuses, hu.2, Answer.status]⟩
  | objectiveLimit =>
    refine Ends.bind_iff.mpr ((haccept (some limit) hanswer).mono_ok fun x u hu => ?_)
    exact ⟨hu.1, fun _ => by simp [boundStatuses, hu.2, Answer.status]⟩
  | infeasible =>
    refine Ends.bind_iff.mpr ((remembers_acceptFarkas a write t).mono (fun x u hu => ?_)
      fun _ _ hu => hu.answered h)
    exact ⟨hu.answered h, fun _ => by simp [boundStatuses, hu.status_eq, hanswer, Answer.status]⟩
  | unbounded => exact ⟨h, fun hx => by cases hx⟩
  | iterationLimit => exact ⟨h, fun hx => by cases hx⟩
  | timeLimit => exact ⟨h, fun hx => by cases hx⟩

/-! ## Results -/

/-- What the result of a solve says about the linear program after it, given whether both methods
failed: it has its status, and no two of the three findings are made. -/
structure Verdict (failed : Prop) (result : SolveResult) (t : Relaxation σ) : Prop where
  status : result.status = t.status
  atMostOne : [result.solveError, result.provedBound, result.needsRecovery].count true ≤ 1
  solveError : result.solveError = true ↔ result.status = .error ∧ failed
  error : result.status = .error ↔ failed
  provedBound : result.provedBound = true → result.status ∈ boundStatuses
  needsRecovery : result.needsRecovery = true → result.status = .notSolved

/-- An answer never makes the solver fail. -/
theorem ends_conclude {answer : Answer} {failed : Prop} (hlp : lp.Credible) (h : ¬ failed)
    (limit : Extended) :
    Ends (conclude answer limit a write) lp (fun x t => Verdict failed x.1 t ∧ t.Credible)
      fun _ t => t.Credible := by
  have hanswered : Answered lp
      { lp with status := answer.status, flags := { lp.flags with solved := true } } :=
    ⟨rfl, by cases answer <;> rfl, rfl⟩
  rw [conclude, Ends.bind_iff, Ends.modify_iff, Ends.bind_iff]
  refine (ends_certify hanswered rfl limit).mono (fun x t ht => ?_) fun _ _ h => h.credible hlp
  obtain ⟨hanswer, hbound⟩ := ht
  have hsolved : t.status ≠ .error := fun heq => by
    have hstatus := hanswer.status
    rw [heq] at hstatus
    cases hstatus
  rw [Ends.bind_iff, Ends.get_iff]
  split
  · refine ⟨⟨rfl, by simp, by simp, ?_, by simp, fun _ => rfl⟩, rfl, (hanswer.credible hlp).stored⟩
    simp [h]
  · next hproved =>
    refine ⟨⟨rfl, ?_, ?_, ?_, fun hsome => ?_, by simp⟩, hanswer.credible hlp⟩
    · cases x.1.isSome <;> simp
    · simp [hsolved]
    · simp [hsolved, h]
    · obtain ⟨b, hb⟩ := Option.isSome_iff_exists.mp hsome
      cases b with
      | false => exact (hproved hb).elim
      | true => exact hbound hb

theorem ends_useAnswer {failed : Prop} (hlp : lp.Credible) (h : ¬ failed) (limit : Extended) :
    Ends (useAnswer write a limit) lp (fun x t => Verdict failed x.1 t ∧ t.Credible)
      fun _ t => t.Credible := by
  have hcount : Remembers True lp { lp with nrSolves := lp.nrSolves + 1 } :=
    remembers_of_eq rfl rfl rfl rfl
  rw [useAnswer, Ends.bind_iff, Ends.modify_iff, Ends.bind_iff]
  refine (remembers_takeAnswer limit _).mono (fun answer t ht => ?_)
    fun _ _ ht => ht.credible (hcount.credible hlp)
  rw [Ends.bind_iff]
  refine (ends_conclude (ht.credible (hcount.credible hlp)) h limit).mono_ok fun x u hu => ?_
  exact Ends.bind_iff.mpr (Ends.get_iff.mpr (Ends.ite_iff.mpr ⟨fun _ => hu, fun _ => hu⟩))

/-- A solve gets as far as to run the solver, and both methods fail. -/
def FailsTwice (a : Approximation) (lp : Relaxation σ) : Prop :=
  ∃ limit t, (prepareSolve a).run.run lp = (.ok (some limit), t) ∧ BothFail t.solver

theorem ends_solveAnd (hlp : lp.Credible) (write : Bool) (a : Approximation) :
    Ends (solveAnd write a) lp (fun x t => Verdict (FailsTwice a lp) x.1 t ∧ t.Credible)
      fun _ t => t.Credible := by
  rw [solveAnd_phases, Ends.bind_iff]
  refine ((Ends.self _ _).and (remembers_prepareSolve a lp)).mono (fun prepared t ht => ?_)
    fun _ _ h => h.2.credible hlp
  obtain ⟨hrun, hkept⟩ := ht
  have ht := hkept.credible hlp
  have hfails {limit : Extended} (h : prepared = some limit) :
      FailsTwice a lp ↔ BothFail t.solver := by
    refine ⟨fun ⟨limit', t', hrun', hboth⟩ => ?_, fun hboth => ⟨limit, t, h ▸ hrun, hboth⟩⟩
    rw [hrun] at hrun'
    cases hrun'
    exact hboth
  cases prepared with
  | none =>
    have hnever : ¬ FailsTwice a lp := fun ⟨_, _, hrun', _⟩ => by
      rw [hrun] at hrun'
      cases hrun'
    exact ⟨⟨rfl, by simp, by simp, by simp [hnever], by simp, by simp⟩, rfl, ht.stored⟩
  | some limit =>
    rw [runPrepared, Ends.bind_iff]
    refine ((ends_runSolver t).and (remembers_runSolver (p := False) t)).mono
      (fun solved u hu => ?_) fun _ _ h => h.2.credible ht
    have hcredible := hu.2.credible ht
    have hiff := hu.1.trans (hfails rfl).symm
    rw [Ends.ite_iff]
    refine ⟨fun hsolved => ends_useAnswer hcredible (fun hboth => ?_) limit, fun hunsolved => ?_⟩
    · exact Bool.noConfusion (hsolved.symm.trans (hiff.mpr hboth))
    · have hboth := hiff.mp (Bool.eq_false_iff.mpr hunsolved)
      exact ⟨⟨rfl, by simp, by simp [hboth], by simp [hboth], by simp, by simp⟩, rfl,
        hcredible.stored⟩

theorem ends_solve (hlp : lp.Credible) (a : Approximation) :
    Ends (solve a) lp (fun x t => Verdict (FailsTwice a lp) x.1 t ∧ t.Credible)
      fun _ t => t.Credible := Ends.bind_iff.mpr (ends_solveAnd hlp _ a)

/-! ## Runs -/

/-- Every action keeps status and flags in step, whether it succeeds or not. -/
theorem credible_perform (a : Action) :
    Along (Preserves Credible) (perform a : RelaxationM σ Unit) := by
  cases hconcerns : a.concernsSolution with
  | false => exact credible_of_remembers (remembers_perform a hconcerns)
  | true =>
    cases a with
    | setCutoff cutoff => exact credible_setCutoff cutoff
    | solve a =>
      exact along_forgetful
        (along_preserves fun lp hlp => (ends_solve hlp a).mono_ok fun _ _ h => h.2)
    | solveAnd write a =>
      exact along_forgetful
        (along_preserves fun lp hlp => (ends_solveAnd hlp write a).mono_ok fun _ _ h => h.2)
    | storeSolution => exact credible_storeSolution
    | restoreSolution => exact credible_restoreSolution
    | startDive store => exact credible_startDive store
    | endDive problem => exact credible_endDive problem
    | _ => cases hconcerns

theorem credible_create (h : create solver settings = .ok lp) : lp.Credible := by
  have hblank : (blank solver).Credible := ⟨rfl, fun _ hs => by cases hs⟩
  exact ((remembers_setSettings (p := False) settings _).of_ok (of_create h).2).credible hblank

theorem Credible.performAll (h : lp.Credible) (actions : List Action) :
    (lp.performAll actions).Credible := performAll_preserves credible_perform h actions

/-- Whatever is done to a relaxation, and whatever its solver answers, the last solution counts
exactly if the status is neither that of an unsolved linear program nor an error, and every solve that
returns has a result that fits the status. -/
theorem performAll_verdicts (hcreate : create solver settings = .ok lp) (actions : List Action) :
    let t := lp.performAll actions
    (t.flags.solved = true ↔ t.status ≠ .notSolved ∧ t.status ≠ .error) ∧
      ∀ a result a' u,
        ((solve a).run.run t = (.ok (result, a'), u) → Verdict (FailsTwice a t) result u) ∧
        ∀ write, (solveAnd write a).run.run t = (.ok (result, a'), u) →
          Verdict (FailsTwice a t) result u := by
  intro t
  have ht : t.Credible := (credible_create hcreate).performAll actions
  refine ⟨?_, fun a result a' u => ⟨fun h => ((ends_solve ht a).of_ok h).1,
    fun write h => ((ends_solveAnd ht write a).of_ok h).1⟩⟩
  rw [ht.solved]
  cases t.status <;> simp [LpStatus.isSolved]

/-! ### Two failures -/

/-- A solver that solves once, and then fails twice. -/
def tiringSolver : Scripted Simplex :=
  { Scripted.around Simplex.empty with script := [.solve, .fail, .fail] }

/-- A relaxation without lines, on top of this solver. -/
def tiring : Relaxation (Scripted Simplex) := (blank tiringSolver).after (setSettings .standard)

theorem create_tiring : create tiringSolver .standard = .ok tiring := rfl

/-- A linear program with one column is solved, and then its column gets another bound. -/
def tiringActions : List Action := [
  .createColumn smallProblem ⟨0⟩, .addColumn ⟨0⟩, .solve .empty, .changeBound ⟨0⟩ .lower 2]

/-- The second solve fails with both methods. -/
theorem performAll_verdicts_tiring :
    let t := tiring.performAll tiringActions
    (t.flags.solved = true ↔ t.status ≠ .notSolved ∧ t.status ≠ .error) ∧ t.status = .notSolved ∧
      ∃ result a u, (solve .empty).run.run t = (.ok (result, a), u) ∧
        Verdict (FailsTwice .empty t) result u ∧ FailsTwice .empty t ∧ u.status = .error := by
  intro t
  obtain ⟨hflags, hverdict⟩ := performAll_verdicts create_tiring tiringActions
  refine ⟨hflags, by decide +kernel, ?_⟩
  have hfailed : ((solve .empty).run.run t).1.toOption.map (·.1.solveError) = some true := by
    decide +kernel
  cases hrun : (solve .empty).run.run t with
  | mk outcome u =>
    rw [hrun] at hfailed
    cases outcome with
    | error e => cases hfailed
    | ok x =>
      have hresult := (hverdict .empty x.1 x.2 u).1 hrun
      have hfails := hresult.solveError.mp (Option.some.inj hfailed)
      exact ⟨x.1, x.2, u, rfl, hresult, hfails.2, hresult.status.symm.trans hfails.1⟩

end Relaxation

end CertifiedLp
