import Mathlib
import CertifiedLp.Proofs.Relaxation.Configuring
import CertifiedLp.Proofs.Relaxation.Verdicts

/-!
# Parameters after a solve

A solve sets parameters for its start and its limits. Where the solver stopped at the objective limit
too early, four of them are set to something else for a moment. However the solver answers, and
whatever fails in between, all of them are set back before the solve ends.
-/

namespace CertifiedLp

namespace Relaxation

variable {σ : Type} [Solver σ] {P : Solver.ParameterStore σ} {v : ParameterValues} {α : Type}
variable {lp s t u : Relaxation σ} {a : Approximation} {write : Bool} {limit : Extended}

/-! ## Configuring a solve -/

theorem Given.settings (h : Given P v lp t) : t.settings = lp.settings := by rw [h.rest]

theorem Given.matrix (h : Given P v lp t) : t.matrix = lp.matrix := by rw [h.rest]

theorem Given.objectiveLimit (h : Given P v lp t) : t.objectiveLimit = lp.objectiveLimit := by
  rw [h.rest]
  rfl

/-- A call that keeps the parameters, whether it succeeds or not. -/
theorem Given.ends_keeps {x : SolverM σ α} (h : Given P v lp t) (hx : Along P.Keeps x) :
    Ends (onSolver x) t (fun _ u => Given P v lp u) fun _ u => Given P v lp u := by
  have hkept {s : σ} (hs : P.Keeps t.solver s) : Given P v lp { t with solver := s } :=
    ⟨(hs h.usable).1, (hs h.usable).2.trans h.values, by rw [h.rest]⟩
  exact Relaxation.ends_onSolver.mpr ((hx t.solver).mono (fun _ _ hs => hkept hs)
    fun _ _ hs => hkept hs)

/-- The parameters have given values, and the settings are the same. -/
structure LeftWith (P : Solver.ParameterStore σ) (v : ParameterValues) (lp t : Relaxation σ) :
    Prop where
  usable : P.Usable t.solver
  values : P.values t.solver = v
  settings : t.settings = lp.settings

theorem Given.leftWith (h : Given P v lp t) : LeftWith P v lp t := ⟨h.usable, h.values, h.settings⟩

theorem LeftWith.unedited (h : LeftWith P v lp t) (hu : Unedited Eq t u) : LeftWith P v lp u :=
  ⟨hu.solver ▸ h.usable, hu.solver ▸ h.values, hu.settings.trans h.settings⟩

theorem LeftWith.ends {x : RelaxationM σ α} (h : LeftWith P v lp t) (hx : Along (Unedited Eq) x) :
    Ends x t (fun _ u => LeftWith P v lp u) fun _ u => LeftWith P v lp u :=
  (hx t).mono (fun _ _ hu => h.unedited hu) fun _ _ hu => h.unedited hu

/-- Pricing and scaling are among the parameters that are still the same. -/
theorem LeftWith.configured (h : LeftWith P v lp t) (hlp : lp.Configured P)
    (hpricing : v.int .pricing = (P.values lp.solver).int .pricing)
    (hscaling : v.int .scaling = (P.values lp.solver).int .scaling) : t.Configured P where
  usable := h.usable
  pricing := by rw [h.values, hpricing, hlp.pricing, h.settings]
  scaling := by rw [h.values, hscaling, hlp.scaling, h.settings]

/-- The basis that a solve starts from. There is none if it is to start from scratch, or if the
approximation knows none. -/
def startBasis? (a : Approximation) (lp : Relaxation σ) : Option Basis :=
  if lp.settings.fromScratch then none
  else a.basis? lp.matrix.solverColumns lp.matrix.solverRows

/-- The solver is told whether there is a basis to start from. -/
theorem Given.ends_chooseStart (h : Given P v lp t) (a : Approximation) :
    Ends (chooseStart a) t
      (fun _ u => Given P (v.setInt .fromScratch (if lp.startBasis? a = none then 1 else 0)) lp u)
      fun _ u => Given P v lp u := by
  have hstart : (if t.settings.fromScratch then none
      else a.basis? t.matrix.solverColumns t.matrix.solverRows) = lp.startBasis? a := by
    rw [h.settings, h.matrix, startBasis?]
  rw [chooseStart, Ends.bind_iff, Ends.get_iff]
  dsimp only
  rw [hstart]
  cases lp.startBasis? a with
  | none => exact (h.ends_setInt (admits_fromScratch True)).mono (fun _ _ hu => hu) fun _ _ hu => hu.elim
  | some basis =>
    rw [Ends.bind_iff]
    refine (h.ends_keeps (P.setBasis basis)).mono_ok fun _ u hu => ?_
    exact (hu.ends_setInt (admits_fromScratch False)).mono (fun _ _ hu => hu) fun _ _ hu => hu.elim

/-- The parameters that a solve gives the solver: the limits, and whether it starts from scratch. -/
structure Limits (lp : Relaxation σ) (cold : Prop) [Decidable cold] (v : ParameterValues) :
    Prop where
  objectiveLimit : v.real .objectiveLimit =
    if lp.cutoff.isInfinite || lp.loose.isInfinite then .posInf else lp.cutoff - lp.looseObjective
  iterationLimit : v.int .iterationLimit = iterationLimitCode lp.settings.iterationLimit
  fromScratch : v.int .fromScratch = if cold then 1 else 0

/-- The second attempt starts from scratch. -/
theorem Limits.retried {cold : Prop} [Decidable cold] (h : Limits lp cold v) (b : Bool) :
    Limits lp (cold ∨ b = true) (if b then v.setInt .fromScratch 1 else v) := by
  cases b with
  | false => exact ⟨h.objectiveLimit, h.iterationLimit, by simp [h.fromScratch]⟩
  | true =>
    refine ⟨h.objectiveLimit, ?_, by simp⟩
    rw [if_pos rfl, ParameterValues.int_setInt, if_neg (by simp), h.iterationLimit]

/-- A solve that is prepared has set its parameters. -/
theorem ends_prepareSolve (h : lp.Configured P) (a : Approximation) :
    Ends (prepareSolve a) lp
      (fun prepared s => s.Configured P ∧ ∀ limit, prepared = some limit →
        limit = lp.objectiveLimit ∧ Limits lp (s.startBasis? a = none) (P.values s.solver))
      fun _ s => s.Configured P := by
  rw [prepareSolve, Ends.bind_iff]
  refine (informed_sync P.updates lp).mono (fun _ t ht => ?_)
    fun _ _ ht => ht.keepsSettings.configured h
  have hconfigured := ht.keepsSettings.configured h
  rw [Ends.bind_iff, Ends.get_iff]
  split
  · exact ⟨hconfigured, fun _ h => by cases h⟩
  next time _ =>
  refine Ends.bind_unfailing ((given_self hconfigured.usable).ends_setReal .timeLimit time)
    fun _ t₁ h₁ => ?_
  rw [Ends.bind_iff]
  refine (h₁.ends_chooseStart a).mono (fun _ t₂ h₂ => ?_) fun _ _ h => ?_
  · rw [Ends.bind_iff, Ends.get_iff]
    refine Ends.bind_unfailing (h₂.ends_setReal .objectiveLimit _) fun _ t₃ h₃ => ?_
    rw [Ends.bind_iff, Ends.get_iff]
    refine Ends.bind_unfailing (h₃.ends_setInt (admits_iterationLimitCode _)) fun _ s hs => ?_
    refine ⟨hs.leftWith.configured hconfigured (by simp) (by simp), fun limit hlimit => ?_⟩
    obtain rfl := Option.some.inj hlimit
    have hstart : s.startBasis? a = t.startBasis? a := by
      rw [startBasis?, hs.settings, hs.matrix, startBasis?]
    have hobjective : t₂.objectiveLimit = lp.objectiveLimit := by
      rw [h₂.objectiveLimit, Relaxation.objectiveLimit, ht.cutoff, looseObjective, ht.loose]
      rfl
    refine ⟨hobjective, ?_, ?_, ?_⟩
    · rw [hs.values, ParameterValues.real_setInt, ParameterValues.real_setReal, if_pos rfl,
        hobjective]
      rfl
    · simp [hs.values, h₃.settings, ht.settings]
    · simp [hs.values, hstart]
  · exact h.leftWith.configured hconfigured (by simp) (by simp)

/-! ## Running the solver -/

/-- A call that is tried keeps the parameters. -/
theorem Given.ends_succeeds {call : SolverM σ Unit} (h : Given P v lp t)
    (hcall : Along P.Keeps call) :
    Ends (succeeds call) t (fun b u => b = (call.run.run t.solver).1.isOk ∧ Given P v lp u)
      fun _ _ => False := by
  refine (Relaxation.ends_succeeds call t).mono_ok fun b u hu => ?_
  obtain ⟨hrest, hrun⟩ := hu
  have hkept (hs : P.Keeps t.solver u.solver) : Given P v lp u :=
    ⟨(hs h.usable).1, (hs h.usable).2.trans h.values, by rw [hrest, h.rest]⟩
  obtain ⟨rfl, hok⟩ | ⟨rfl, e, herror⟩ := hrun
  · exact ⟨by rw [hok]; rfl, hkept ((hcall t.solver).of_ok hok)⟩
  · exact ⟨by rw [herror]; rfl, hkept ((hcall t.solver).of_error herror)⟩

/-- The dual simplex method fails, so that a solve falls back to the primal one. -/
def fallsBack (lp : Relaxation σ) : Bool := !(Solver.solveDual.run.run lp.solver).1.isOk

/-- The second attempt starts from scratch. Nothing else about the parameters depends on how the
methods end. -/
theorem Given.ends_runSolver (h : Given P v lp t) :
    Ends runSolver t
      (fun _ u => Given P (if t.fallsBack then v.setInt .fromScratch 1 else v) lp u)
      fun _ _ => False := by
  refine Ends.bind_unfailing (h.ends_succeeds P.solveDual) fun solved u hu => ?_
  obtain ⟨hsolved, hu⟩ := hu
  rw [fallsBack, ← hsolved]
  cases solved with
  | true => exact hu
  | false =>
    rw [if_neg Bool.false_ne_true]
    refine Ends.bind_unfailing (hu.ends_setInt (admits_fromScratch True)) fun _ u₁ h₁ => ?_
    exact (h₁.ends_succeeds P.solvePrimal).mono_ok fun _ _ h => h.2

/-! ## The objective limit -/

/-- What is set for the confirmation of an objective limit, and set back afterwards, is what it was. -/
theorem ParameterValues.setBack (v : ParameterValues) (x y z : Int) (w : Extended) :
    (((((((v.setReal .objectiveLimit w).setInt .fromScratch x).setInt .pricing y).setInt
      .iterationLimit z).setReal .objectiveLimit (v.real .objectiveLimit)).setInt .fromScratch
        (v.int .fromScratch)).setInt .pricing (v.int .pricing)).setInt .iterationLimit
          (v.int .iterationLimit) = v := by
  ext p
  · cases p <;> simp
  · cases p <;> simp

theorem Given.ends_askInt (h : Given P v lp t) (parameter : IntParameter) :
    Ends (askSolver (Solver.intParameter · parameter)) t
      (fun x u => x = v.int parameter ∧ u = t) fun _ _ => False := by
  rw [ends_askSolver_iff, P.intParameter h.usable, h.values]
  refine ⟨fun x hx => ⟨(Except.ok.inj hx).symm, rfl⟩, fun e he => by cases he⟩

/-- The values that are read to be set back later are those that a solve has set. -/
structure Restorable (limit : Extended) (v : ParameterValues) : Prop where
  objectiveLimit : v.real .objectiveLimit = limit
  fromScratch : IntParameter.fromScratch.Admits (v.int .fromScratch)
  pricing : IntParameter.pricing.Admits (v.int .pricing)
  iterationLimit : IntParameter.iterationLimit.Admits (v.int .iterationLimit)

/-- The confirmation of an objective limit sets back the parameters, whether it is confirmed, is
not, or the solver fails. -/
theorem Given.ends_confirmObjectiveLimit (h : Given P v lp t) (hv : Restorable limit v) :
    Ends (confirmObjectiveLimit limit) t (fun _ u => LeftWith P v lp u)
      fun _ u => LeftWith P v lp u := by
  refine Ends.bind_unfailing (h.ends_askInt .fromScratch) fun x t' hx => ?_
  obtain ⟨rfl, rfl⟩ := hx
  refine Ends.bind_unfailing (h.ends_askInt .pricing) fun x t hx => ?_
  obtain ⟨rfl, rfl⟩ := hx
  refine Ends.bind_unfailing (h.ends_askInt .iterationLimit) fun x t hx => ?_
  obtain ⟨rfl, rfl⟩ := hx
  refine Ends.bind_unfailing (h.ends_setReal .objectiveLimit .posInf) fun _ t₁ h₁ => ?_
  refine Ends.bind_unfailing (h₁.ends_setInt (admits_fromScratch False)) fun _ t₂ h₂ => ?_
  refine Ends.bind_unfailing (h₂.ends_setInt (admits_pricing .steepestEdge)) fun _ t₃ h₃ => ?_
  refine Ends.bind_unfailing (h₃.ends_setInt (admits_iterationLimitCode (some 1))) fun _ t₄ h₄ => ?_
  refine Ends.bind_unfailing (h₄.ends_succeeds P.solveDual) fun solved t₅ h₅ => ?_
  refine Ends.bind_unfailing (h₅.2.ends_setReal .objectiveLimit limit) fun _ t₆ h₆ => ?_
  refine Ends.bind_unfailing (h₆.ends_setInt hv.fromScratch) fun _ t₇ h₇ => ?_
  refine Ends.bind_unfailing (h₇.ends_setInt hv.pricing) fun _ t₈ h₈ => ?_
  refine Ends.bind_unfailing (h₈.ends_setInt hv.iterationLimit) fun _ u hu => ?_
  rw [← hv.objectiveLimit, ParameterValues.setBack] at hu
  rw [Ends.bind_iff, Ends.get_iff]
  split
  · exact hu.leftWith
  · exact hu.leftWith
  · exact hu.leftWith
  · exact hu.leftWith
  · exact hu.leftWith.unedited (unedited_status ..)

theorem Limits.restorable {cold : Prop} [Decidable cold] (h : Limits lp cold v)
    (hpricing : IntParameter.pricing.Admits (v.int .pricing)) : Restorable lp.objectiveLimit v where
  objectiveLimit := h.objectiveLimit
  fromScratch := h.fromScratch ▸ admits_fromScratch cold
  pricing := hpricing
  iterationLimit := h.iterationLimit ▸ admits_iterationLimitCode _

theorem Given.ends_takeAnswer (h : Given P v lp t) (hv : Restorable limit v) :
    Ends (takeAnswer limit) t (fun _ u => LeftWith P v lp u) fun _ u => LeftWith P v lp u := by
  rw [takeAnswer, Ends.bind_iff, Ends.get_iff]
  split
  · exact h.leftWith.unedited (unedited_status ..)
  · rw [Ends.bind_iff, ends_askSolver_iff]
    refine ⟨fun objective _ => ?_, fun _ _ => h.leftWith⟩
    rw [Ends.ite_iff]
    exact ⟨fun _ => h.ends_confirmObjectiveLimit hv, fun _ => h.leftWith⟩
  · exact h.leftWith

/-- What is made of an answer has nothing to do with the parameters. -/
theorem ends_useAnswer_leftWith (husable : P.Usable t.solver)
    (hv : Restorable limit (P.values t.solver)) :
    Ends (useAnswer write a limit) t (fun _ u => LeftWith P (P.values t.solver) t u)
      fun _ u => LeftWith P (P.values t.solver) t u := by
  have hcounted : Given P (P.values t.solver) { t with nrSolves := t.nrSolves + 1 }
      { t with nrSolves := t.nrSolves + 1 } := ⟨husable, rfl, rfl⟩
  have hcongr {u : Relaxation σ}
      (h : LeftWith P (P.values t.solver) { t with nrSolves := t.nrSolves + 1 } u) :
      LeftWith P (P.values t.solver) t u := ⟨h.usable, h.values, h.settings⟩
  rw [useAnswer, Ends.bind_iff, Ends.modify_iff, Ends.bind_iff]
  refine (hcounted.ends_takeAnswer hv).mono (fun answer u hu => ?_) fun _ _ h => hcongr h
  rw [Ends.bind_iff]
  have hconclude : Along (Consulted Eq) (conclude answer limit a write :
      RelaxationM σ (SolveResult × Approximation)) := consulted_conclude answer limit a write
  refine ((hcongr hu).ends (unedited_of_consulted hconclude)).mono_ok fun x w hw => ?_
  exact Ends.bind_iff.mpr (Ends.get_iff.mpr (Ends.ite_iff.mpr ⟨fun _ => hw, fun _ => hw⟩))

/-! ## Solves -/

/-- After a solve the solver is configured, and if it was run then its limits and its start are those
that it was run with. -/
structure Restored (P : Solver.ParameterStore σ) (a : Approximation) (lp u : Relaxation σ) :
    Prop where
  configured : u.Configured P
  limits : ∀ limit s, (prepareSolve a).run.run lp = (.ok (some limit), s) →
    Limits lp (s.startBasis? a = none ∨ s.fallsBack = true) (P.values u.solver)

theorem ends_solveAnd_restored (h : lp.Configured P) (write : Bool) (a : Approximation) :
    Ends (solveAnd write a) lp (fun _ u => Restored P a lp u) fun _ u => Restored P a lp u := by
  rw [solveAnd_phases, Ends.bind_iff]
  refine ((Ends.self _ _).and (ends_prepareSolve h a)).mono (fun prepared s hs => ?_)
    fun e s hs => ⟨hs.2, fun limit s' hrun => by rw [hs.1] at hrun; cases hrun⟩
  obtain ⟨hrun, hconfigured, hlimits⟩ := hs
  cases prepared with
  | none =>
    exact ⟨⟨hconfigured.usable, hconfigured.pricing, hconfigured.scaling⟩,
      fun limit s' hrun' => by rw [hrun] at hrun'; cases hrun'⟩
  | some limit =>
    obtain ⟨rfl, hset⟩ := hlimits limit rfl
    rw [runPrepared]
    refine Ends.bind_unfailing (given_self hconfigured.usable).ends_runSolver fun solved t ht => ?_
    have hlimits := ht.values.symm ▸ hset.retried s.fallsBack
    have hconfigured' : t.Configured P := by
      refine ht.leftWith.configured hconfigured ?_ ?_ <;> split <;> simp
    have hrestored {u : Relaxation σ} (hu : LeftWith P (P.values t.solver) t u) :
        Restored P a lp u := by
      refine ⟨hu.configured hconfigured' rfl rfl, fun limit s' hrun' => ?_⟩
      rw [hrun] at hrun'
      cases hrun'
      exact hu.values.symm ▸ hlimits
    have hv : Restorable lp.objectiveLimit (P.values t.solver) :=
      hlimits.restorable (hconfigured'.pricing ▸ admits_pricing _)
    rw [Ends.ite_iff]
    refine ⟨fun _ => ?_, fun _ => hrestored ⟨ht.usable, rfl, rfl⟩⟩
    exact (ends_useAnswer_leftWith ht.usable hv).mono (fun _ _ hu => hrestored hu)
      fun _ _ hu => hrestored hu

theorem ends_solve_restored (h : lp.Configured P) (a : Approximation) :
    Ends (solve a) lp (fun _ u => Restored P a lp u) fun _ u => Restored P a lp u :=
  Ends.bind_iff.mpr (ends_solveAnd_restored h _ a)

theorem configured_solveAnd (write : Bool) (a : Approximation) :
    Along (Preserves (Configured P))
      (solveAnd write a : RelaxationM σ (SolveResult × Approximation)) :=
  along_preserves fun _ h => (ends_solveAnd_restored h write a).mono (fun _ _ hu => hu.configured)
    fun _ _ hu => hu.configured

/-! ## Dives -/

theorem configured_startDive (store : Bool) :
    Along (Preserves (Configured P)) (startDive store : RelaxationM σ Unit) := by
  refine configured_of_keepsSettings (.get fun lp => .ite .throw_bind ?_)
  refine .bind keepsSettings_sync fun _ => .bind (along_askSolver _) fun snapshot => .get fun _ => ?_
  refine .ite ?_ (keepsSettings_modify fun _ => ⟨rfl, rfl⟩)
  refine .bind (keepsSettings_of_unedited unedited_storeSolution) fun _ => ?_
  exact keepsSettings_modify fun _ => ⟨rfl, rfl⟩

/-- The end of a dive sets the iteration limit, and no other parameter. -/
theorem configured_undoDive (problem : Problem) (dive : Dive σ) :
    Along (Preserves (Configured P)) (undoDive problem dive : RelaxationM σ Unit) := by
  have hlimit : Along (Preserves (Configured P)) (onSolver (Solver.setInt .iterationLimit
      (iterationLimitCode dive.iterationLimit)) : RelaxationM σ Unit) :=
    along_preserves fun lp h => ((given_self h.usable).ends_setInt (admits_iterationLimitCode _)).mono
      (fun _ _ ht => ht.leftWith.configured h (by simp) (by simp)) fun _ _ h => h.elim
  rw [undoDive_eq]
  refine .bind (configured_of_keepsSettings ?_) fun _ => ?_
  · exact admitsChanges_keepsSettings.undoEdits keepsSettings_shrinkRows problem dive
  refine .bind (configured_of_keepsSettings ?_) fun _ => hlimit
  exact keepsSettings_sync

theorem configured_endDive (problem : Problem) :
    Along (Preserves (Configured P)) (endDive problem : RelaxationM σ Unit) := by
  have hmodify {g : Relaxation σ → Relaxation σ}
      (h : ∀ lp, (g lp).solver = lp.solver ∧ (g lp).settings = lp.settings) :
      Along (Preserves (Configured P)) (modify g : RelaxationM σ PUnit) :=
    configured_of_keepsSettings (keepsSettings_modify h)
  refine .get fun lp => ?_
  split
  · exact .throw
  next dive _ =>
  refine .bind (hmodify fun _ => ⟨rfl, rfl⟩) fun _ => .bind (.tryCatch (configured_undoDive problem dive)
    fun e => .bind (hmodify fun _ => ⟨rfl, rfl⟩) fun _ => .throw) fun _ => ?_
  refine .bind (configured_setIterationLimit _) fun _ => .bind (.tryCatch
    (configured_of_keepsSettings (keepsSettings_onSolver (P.restore _))) fun _ => .pure) fun _ => ?_
  exact .ite (configured_of_keepsSettings (keepsSettings_of_unedited unedited_restoreSolution))
    (.bind (configured_of_keepsSettings keepsSettings_markUnsolved) fun _ =>
      hmodify fun _ => ⟨rfl, rfl⟩)

/-! ## Runs -/

/-- Every action leaves the solver configured, whether it succeeds or not. -/
theorem configured_perform (a : Action) :
    Along (Preserves (Configured P)) (perform a : RelaxationM σ Unit) := by
  have hlong {x : RelaxationM σ Unit} (hx : Along (KeepsSettings P.Keeps) x) :
      Along (Preserves (Configured P)) x := configured_of_keepsSettings hx
  have hunedited {x : RelaxationM σ Unit} (hx : Along (Unedited P.Keeps) x) :
      Along (Preserves (Configured P)) x := hlong (keepsSettings_of_unedited hx)
  have hsteady {x : RelaxationM σ Unit} (hx : Along (Steady P.Keeps (.edits Set.univ)) x) :
      Along (Preserves (Configured P)) x := hlong (keepsSettings_of_steady hx)
  cases a with
  | setSettings settings => exact configured_setSettings settings
  | setCutoff cutoff => exact hunedited (unedited_setCutoff cutoff)
  | createColumn problem x => exact hlong (along_forgetful (keepsSettings_createColumn problem x))
  | createRow name spec => exact hlong (along_forgetful (keepsSettings_createRow name spec))
  | captureRow r => exact hsteady (steady_captureRow r)
  | releaseRow r => exact hsteady (steady_releaseRow (Set.mem_univ r))
  | lockRow r => exact hsteady (steady_lockRow r)
  | unlockRow r => exact hsteady (steady_unlockRow r)
  | addColumn c => exact hlong (keepsSettings_addColumn c)
  | addRow r => exact hlong (keepsSettings_addRow r)
  | shrinkColumns size => exact hlong (keepsSettings_shrinkColumns size)
  | shrinkRows size => exact hlong (keepsSettings_shrinkRows size)
  | deleteRows mask => exact hlong (keepsSettings_deleteRows mask)
  | clear =>
    exact hlong (.bind (keepsSettings_shrinkColumns 0) fun _ => keepsSettings_shrinkRows 0)
  | changeObjective c objective => exact hlong (admitsChanges_keepsSettings.changeObjective c objective)
  | changeBound c side value => exact hlong (admitsChanges_keepsSettings.changeBound c side value)
  | changeSide r side value => exact hlong (admitsChanges_keepsSettings.changeSide r side value)
  | changeConstant r constant => exact hlong (admitsChanges_keepsSettings.changeConstant r constant)
  | coefficient c r => exact hsteady (along_forgetful (steady_coefficient c r))
  | edit c r e => exact hsteady (steady_edit c r e)
  | addCoefficientsInRow r coefficients => exact hsteady (steady_addCoefficientsInRow r coefficients)
  | delayOrder r => exact hsteady (steady_delayOrder r)
  | forceOrder r => exact hsteady (steady_forceOrder r)
  | sync => exact hlong keepsSettings_sync
  | solve a => exact along_forgetful (.get fun _ => configured_solveAnd _ a)
  | solveAnd write a => exact along_forgetful (configured_solveAnd write a)
  | storeSolution => exact hunedited unedited_storeSolution
  | restoreSolution => exact hunedited unedited_restoreSolution
  | rowActivity r => exact hunedited (along_forgetful (unedited_rowActivity r))
  | rowFeasibility r => exact hunedited (along_forgetful (unedited_rowFeasibility r))
  | startDive store => exact configured_startDive store
  | setIterationLimit limit => exact configured_setIterationLimit limit
  | endDive problem => exact configured_endDive problem

/-- Whatever is done to a relaxation on top of a solver that stores its parameters, and whatever this
solver answers, it has the pricing rule and the scaling of the settings. After every solve that ran
it, its objective limit is the cutoff bound without the loose objective, its iteration limit is that
of the settings, and it starts from scratch if the solve did so or fell back to the primal simplex
method. -/
theorem performAll_parameters (P : Solver.ParameterStore σ) {solver : σ} {settings : Settings}
    (husable : P.Usable solver) (hcreate : create solver settings = .ok lp)
    (actions : List Action) :
    let t := lp.performAll actions
    t.Configured P ∧ ∀ a write limit s, (prepareSolve a).run.run t = (.ok (some limit), s) →
      ∀ x ∈ [solve a, solveAnd write a],
        Limits t (s.startBasis? a = none ∨ s.fallsBack = true) (P.values (t.after x).solver) := by
  intro t
  have ht : t.Configured P :=
    performAll_preserves configured_perform (configured_create husable hcreate) actions
  refine ⟨ht, fun a write limit s hrun x hx => ?_⟩
  rw [List.mem_pair] at hx
  obtain rfl | rfl := hx
  · exact (ends_solve_restored ht a).state.limits limit s hrun
  · exact (ends_solveAnd_restored ht write a).state.limits limit s hrun

/-! ### An objective limit that is not confirmed -/

/-- A solver whose dual simplex method always fails, and whose primal one stops at the objective
limit with an objective value below it. -/
def waveringSolver : Scripted Simplex :=
  { Scripted.around Simplex.empty with
    script := [.fail, .report .objectiveLimit, .fail]
    solution := some ⟨0, #[0], #[], #[], #[0]⟩ }

/-- A relaxation without lines, on top of this solver. -/
def wavering : Relaxation (Scripted Simplex) :=
  (blank waveringSolver).after (setSettings .standard)

theorem create_wavering : create waveringSolver .standard = .ok wavering := rfl

/-- A linear program with one column, and a cutoff bound. -/
def waveringActions : List Action := [.createColumn smallProblem ⟨0⟩, .addColumn ⟨0⟩, .setCutoff 5]

/-- The solve falls back to the primal simplex method, and then fails to confirm the objective limit. -/
theorem performAll_parameters_wavering :
    let t := wavering.performAll waveringActions
    ((solve .empty).run.run t).1.toOption = none ∧
      ∃ limit s, (prepareSolve .empty).run.run t = (.ok (some limit), s) ∧ s.fallsBack = true ∧
        Limits t (s.startBasis? .empty = none ∨ s.fallsBack = true)
          (Scripted.values Simplex.parameterStore (t.after (solve .empty)).solver) := by
  intro t
  have husable : (Scripted.parameterStore Simplex.parameterStore).Usable waveringSolver :=
    ⟨trivial, fun _ => List.not_mem_nil, fun _ => List.not_mem_nil, fun _ => List.not_mem_nil⟩
  have hparameters := performAll_parameters (Scripted.parameterStore Simplex.parameterStore)
    husable create_wavering waveringActions
  rw [show wavering.performAll waveringActions = t from rfl] at hparameters
  have hfails : ((solve .empty).run.run t).1.toOption = none := by decide +kernel
  have hprepared : ((prepareSolve .empty).run.run t).1.toOption = some (some 5) := by decide +kernel
  have hfallsBack : ((prepareSolve .empty).run.run t).2.fallsBack = true := by decide +kernel
  -- From here on the relaxation is any one with these facts: it must not be unfolded.
  clear_value t
  refine ⟨hfails, ?_⟩
  cases hrun : (prepareSolve .empty).run.run t with
  | mk outcome s =>
    rw [hrun] at hprepared hfallsBack
    cases outcome with
    | error e => cases hprepared
    | ok prepared =>
      obtain rfl : prepared = some 5 := Option.some.inj hprepared
      exact ⟨5, s, rfl, hfallsBack, hparameters.2 .empty false 5 s hrun _ List.mem_cons_self⟩

end Relaxation

end CertifiedLp
