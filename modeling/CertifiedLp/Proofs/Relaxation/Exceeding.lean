import Mathlib
import CertifiedLp.Proofs.Relaxation.Aftermath
import CertifiedLp.Proofs.Relaxation.Certifying
import CertifiedLp.Proofs.Relaxation.Extremes
import CertifiedLp.Proofs.Relaxation.ObjectiveTotals
import CertifiedLp.Proofs.Relaxation.Obsolescence

/-!
# Exceeded objective limits

When a solve reports with a proof that the objective limit is exceeded, every feasible point of the
active linear program has an objective value of at least the cutoff bound, with the loose objective
added. For as long as this status is reported, the active linear program is the same and the cutoff
bound is no larger.

The loose objective may change meanwhile, without making the status obsolete: it decreases when a
column with a negative contribution is created. So the bound is one for the loose objective at the time
of the solve, and it is one for the current loose objective where that is no smaller.
-/

namespace CertifiedLp

open Extended (finite)

namespace ConstraintMatrix

variable {m : ConstraintMatrix} {c : ColumnRef} {r : RowRef} {row : Row}

/-- The content of a column and a row, which forgets positions, has the stored values. -/
theorem content_eq (m : ConstraintMatrix) (c : ColumnRef) (r : RowRef) :
    m.content c r = (m.storedValues c r : Multiset Extended) := by
  have hcolumn : (m.grid.stored (.column c) (.row r)).map (·.1) =
      ((m.column c).entries.valuesFor r fun _ => true : List Extended) := by
    rw [stored_column, Multiset.map_coe, List.map_map, Incidence.valuesFor]
    simp only [Bool.and_true]
    rfl
  rw [content, hcolumn, storedValues, ← Multiset.coe_add]
  cases hrow : m.row? r with
  | none =>
    have hnone : m.grid.stored (.row r) (.column c) = 0 := by simp [Grid.stored, grid, hrow]
    rw [hnone]
    rfl
  | some row =>
    rw [stored_row hrow, Multiset.filter_coe, Multiset.map_coe, List.filter_map, List.map_map,
      List.filter_filter]
    dsimp only
    rw [Incidence.valuesFor]
    refine congrArg _ (congrArg _ (congrArg _ (List.filter_congr fun e _ => ?_)))
    simp [Bool.and_comm]

/-- What counts between two lines is what the values add up to. -/
theorem Sound.coefficientAt_eq (hm : m.Sound) (c : ColumnRef) (r : RowRef) :
    m.coefficientAt c r = finite (m.amount c r) := by
  have hfinite (v : Extended) (hv : v ∈ m.storedValues c r) : v.isFinite = true := by
    rw [← Multiset.mem_coe, ← content_eq, content, Multiset.mem_add, Multiset.mem_map,
      Multiset.mem_map] at hv
    rcases hv with ⟨⟨v, b⟩, hv, rfl⟩ | ⟨⟨v, b⟩, hv, rfl⟩
    · exact (hm.tidy.storable hv).1
    · exact (hm.tidy.storable (Multiset.mem_of_mem_filter hv)).1
  rw [coefficientAt, Extended.sum_eq_finite hfinite, amount, content_eq, Multiset.map_coe,
    Multiset.sum_coe]

end ConstraintMatrix

/-- Whether an action may give an answer, by solving or by bringing a solution back. -/
def Action.answers : Action → Bool
  | solve _ | solveAnd .. | restoreSolution | startDive _ | endDive _ => true
  | _ => false

/-- A solve reports an exceeded objective limit, with a proof. -/
structure SolveResult.ProvesLimit (result : SolveResult) : Prop where
  status : result.status = .objectiveLimit
  provedBound : result.provedBound = true

/-- A solver reports solutions in rational numbers. -/
def Solver.ReportsNumbers (σ : Type) [Solver σ] : Prop :=
  ∀ (s : σ) solution, Solver.solution s = .ok solution → solution.IsFinite

namespace Relaxation

variable {σ : Type} [Solver σ] {lp t u v : Relaxation σ} {x : ColumnRef → Rat} {limit : Extended}
variable {action : Action} {actions later : List Action}

/-- No feasible point has an objective value below a limit. -/
def NoneBelow (lp : Relaxation σ) (limit : Extended) : Prop :=
  ∀ x, lp.IsFeasible x → limit ≤ lp.costAt x

/-- Only the lines and the coefficients matter. -/
theorem NoneBelow.congr (h : t.NoneBelow limit) (hmatrix : t.matrix = lp.matrix)
    (hcolumns : t.columns = lp.columns) (hrows : t.rows = lp.rows) : lp.NoneBelow limit := by
  intro x hx
  have hcost : t.costAt x = lp.costAt x := by rw [costAt, costAt, hmatrix, hcolumns]
  have hactivity (r : RowRef) : t.activityAt r x = lp.activityAt r x := by
    rw [activityAt, activityAt, hmatrix, hcolumns]
  refine hcost ▸ h x ⟨fun c hc => ?_, fun r hr row hrow => ?_⟩
  · rw [hmatrix]
    exact hx.bounds c (hcolumns ▸ hc)
  · rw [hactivity]
    exact hx.sides r (hrows ▸ hr) row (hmatrix ▸ hrow)

namespace SameActive

theorem symm (h : SameActive lp t) : SameActive t lp where
  columns := h.columns.symm
  rows := h.rows.symm
  columnSpec c hc := (h.columnSpec c (h.columns ▸ hc)).symm
  rowSpec r hr := (h.rowSpec r (h.rows ▸ hr)).symm
  amount c hc r hr := (h.amount c (h.columns ▸ hc) r (h.rows ▸ hr)).symm

theorem costAt_eq (h : SameActive lp t) (x : ColumnRef → Rat) : t.costAt x = lp.costAt x := by
  rw [costAt, costAt, h.columns]
  refine congrArg _ (List.map_congr_left fun c hc => ?_)
  rw [h.columnSpec c (by simpa using hc)]

variable (h : SameActive lp t) (hlp : lp.Coherent) (ht : t.Coherent)

include h hlp ht

theorem activityAt_eq {r : RowRef} (hr : r ∈ lp.rows) (x : ColumnRef → Rat) :
    t.activityAt r x = lp.activityAt r x := by
  rw [activityAt, activityAt, h.columns]
  refine congrArg _ (List.map_congr_left fun c hc => ?_)
  rw [ht.sound.coefficientAt_eq, hlp.sound.coefficientAt_eq, h.amount c (by simpa using hc) r hr]

theorem isFeasible (hx : lp.IsFeasible x) : t.IsFeasible x where
  bounds c hc := by
    rw [h.columns] at hc
    rw [h.columnSpec c hc]
    exact hx.bounds c hc
  sides r hr row' hrow' := by
    rw [h.rows] at hr
    have hspec := h.rowSpec r hr
    rw [hrow', Option.map_some] at hspec
    obtain ⟨row, hrow, heq⟩ := Option.map_eq_some_iff.mp hspec.symm
    rw [h.activityAt_eq hlp ht hr, ← heq]
    exact hx.sides r hr row hrow

end SameActive

/-- What carries the coefficients and keeps the lines, keeps the active linear program. -/
theorem Coherent.ends_sameActive {α : Type} {x : RelaxationM σ α} (hlp : lp.Coherent)
    (hcarries : Along (Carries ConstraintMatrix.Sheds) x) (hlines : Along SameLines x) :
    Ends x lp (fun _ t => t.Coherent ∧ SameActive lp t) fun _ _ => True :=
  ((hlp.carried.ends hcarries).and (hlines lp)).mono
    (fun _ _ h => ⟨h.1.coherent, h.1.sameActive h.2 hlp⟩) fun _ _ _ => trivial

/-! ## Certificates for a limit -/

/-- What is proved about a solution, the limit or else the objective value, is a bound for every
feasible point. -/
theorem Certifiable.ends_acceptSolution (h : lp.Certifiable) (hσ : Solver.ReportsNumbers σ)
    (a : Approximation) (write : Bool) (limit : Option Extended) :
    Ends (acceptSolution a write limit) lp
      (fun x t => x.1 = true → lp.NoneBelow (limit.getD t.solverObjective) ∧
        ∀ l, limit = some l → l ≠ .posInf) fun _ _ => True := by
  cases hsolution : Solver.solution lp.solver with
  | error e =>
    rw [acceptSolution, Ends.bind_iff, ends_askSolver_iff, hsolution]
    exact ⟨fun _ hs => (by cases hs), fun _ _ => trivial⟩
  | ok s =>
    refine (Relaxation.ends_acceptSolution h hsolution (hσ _ s hsolution) a write limit).mono_ok ?_
    rintro ⟨proved, a'⟩ t ⟨f, rfl, hf, hobjective⟩ hproved
    have hbelow : lp.NoneBelow f.dualBound := fun _ hx => hf.dualBound_le_costAt h hx
    cases limit with
    | none =>
      simp only [Findings.prove, Bool.and_eq_true, decide_eq_true_eq] at hproved
      refine ⟨fun x hx => ?_, fun _ hl => by cases hl⟩
      rw [Option.getD_none, hobjective]
      exact Extended.le_trans hproved.2 (hbelow x hx)
    | some l =>
      simp only [Findings.prove, Bool.and_eq_true, decide_eq_true_eq] at hproved
      refine ⟨fun x hx => Extended.le_trans hproved.2 (hbelow x hx), ?_⟩
      rintro _ ⟨⟩ rfl
      obtain ⟨b, hb⟩ := Extended.isFinite_iff.mp hproved.1
      rw [hb] at hproved
      cases hproved.2

/-- The status of an exceeded objective limit comes with a bound, if anything is certified. -/
theorem Certifiable.ends_certify (h : lp.Certifiable) (hσ : Solver.ReportsNumbers σ) {answer : Answer}
    (hanswer : lp.status = answer.status) (limit : Extended) (a : Approximation) (write : Bool) :
    Ends (certify answer limit a write) lp
      (fun x t => x.1 = some true → t.status = .objectiveLimit →
        limit ≠ .posInf ∧ lp.NoneBelow limit)
      fun _ _ => True := by
  have haccept (wanted : Option Extended) : Ends (acceptSolution a write wanted) lp
      (fun x t => (x.1 = true → lp.NoneBelow (wanted.getD t.solverObjective) ∧
        ∀ l, wanted = some l → l ≠ .posInf) ∧ t.status = answer.status) fun _ _ => True :=
    ((h.ends_acceptSolution hσ a write wanted).and
      (remembers_acceptSolution (p := False) a write wanted lp)).mono
        (fun _ _ ht => ⟨ht.1, ht.2.status_eq.trans hanswer⟩) fun _ _ _ => trivial
  cases answer with
  | optimal =>
    refine Ends.bind_iff.mpr ((haccept none).mono_ok fun x t ht => ?_)
    refine Ends.bind_iff.mpr (Ends.get_iff.mpr (Ends.ite_iff.mpr ⟨fun hexceeded => ?_, fun _ => ?_⟩))
    · intro hproved _
      simp only [Bool.and_eq_true, decide_eq_true_eq] at hexceeded
      obtain ⟨b, hb⟩ := Extended.isFinite_iff.mp hexceeded.1
      refine ⟨by simp [hb], fun x hx => ?_⟩
      have hlt := Extended.lt_iff_not_le.mp hexceeded.2
      exact Extended.le_trans ((Extended.le_total _ _).resolve_right hlt)
        ((ht.1 (Option.some.inj hproved)).1 x hx)
    · exact fun _ hstatus => by cases ht.2.symm.trans hstatus
  | objectiveLimit =>
    refine Ends.bind_iff.mpr ((haccept (some limit)).mono_ok fun x t ht => ?_)
    exact fun hproved _ => have hbound := ht.1 (Option.some.inj hproved); ⟨hbound.2 _ rfl, hbound.1⟩
  | infeasible =>
    refine Ends.bind_iff.mpr ((remembers_acceptFarkas (p := False) a write lp).mono
      (fun x t ht => ?_) fun _ _ _ => trivial)
    exact fun _ hstatus => by cases (ht.status_eq.trans hanswer).symm.trans hstatus
  | unbounded => exact fun hproved => by cases hproved
  | iterationLimit => exact fun hproved => by cases hproved
  | timeLimit => exact fun hproved => by cases hproved

/-! ## Solves that prove a limit -/

theorem Certifiable.ends_concludeLimit (h : lp.Certifiable) (hσ : Solver.ReportsNumbers σ)
    (answer : Answer) (limit : Extended) (a : Approximation) (write : Bool) :
    Ends (conclude answer limit a write) lp
      (fun x _ => x.1.ProvesLimit → limit ≠ .posInf ∧ lp.NoneBelow limit) fun _ _ => True := by
  have hnoted : Certifiable
      { lp with status := answer.status, flags := { lp.flags with solved := true } } :=
    h.congr rfl rfl rfl
  rw [conclude, Ends.bind_iff, Ends.modify_iff, Ends.bind_iff]
  refine (hnoted.ends_certify hσ rfl limit a write).mono_ok fun x t ht => ?_
  rw [Ends.bind_iff, Ends.get_iff]
  split
  · exact fun hproves => by cases hproves.status
  · next hproved =>
    intro hproves
    obtain ⟨b, hb⟩ := Option.isSome_iff_exists.mp hproves.2
    cases b with
    | false => exact (hproved hb).elim
    | true => exact (ht hb hproves.1).imp_right fun hnone => hnone.congr rfl rfl rfl

/-- The bound of a solve is the objective limit that the solver was given. -/
theorem Certifiable.ends_runPrepared (h : lp.Certifiable) (hσ : Solver.ReportsNumbers σ)
    {prepared : Option Extended}
    (hprepared : ∀ limit, prepared = some limit → limit = lp.objectiveLimit)
    (write : Bool) (a : Approximation) :
    Ends (runPrepared write a prepared) lp
      (fun x _ => x.1.ProvesLimit → lp.objectiveLimit ≠ .posInf ∧ lp.NoneBelow lp.objectiveLimit)
      fun _ _ => True := by
  cases prepared with
  | none => exact fun hproves => by cases hproves.status
  | some limit =>
    obtain rfl := hprepared limit rfl
    rw [runPrepared, Ends.bind_iff]
    refine (Attempts.runSolver lp).mono ?_ fun _ _ _ => trivial
    rintro solved _ ⟨s, rfl⟩
    rw [Ends.ite_iff]
    refine ⟨fun _ => ?_, fun _ hproves => by cases hproves.status⟩
    rw [useAnswer, Ends.bind_iff, Ends.modify_iff, Ends.bind_iff]
    refine (Attempts.takeAnswer _ _).mono ?_ fun _ _ _ => trivial
    rintro answer _ ⟨s', rfl⟩
    have hrun : Certifiable { lp with nrSolves := lp.nrSolves + 1, solver := s' } := h.congr rfl rfl rfl
    rw [Ends.bind_iff]
    refine (hrun.ends_concludeLimit hσ answer lp.objectiveLimit a write).mono_ok fun x u hu => ?_
    have hbound (hproves : x.1.ProvesLimit) :
        lp.objectiveLimit ≠ .posInf ∧ lp.NoneBelow lp.objectiveLimit :=
      (hu hproves).imp_right fun hnone => hnone.congr rfl rfl rfl
    exact Ends.bind_iff.mpr (Ends.get_iff.mpr (Ends.ite_iff.mpr ⟨fun _ => hbound, fun _ => hbound⟩))

/-- After the solver was brought up to date, its preparation concerns nothing else. -/
theorem ends_prepareSolve_handled (hsync : sync.run.run lp = (.ok (), u)) (a : Approximation) :
    Ends (prepareSolve a) lp
      (fun prepared t => Handled u t ∧ ∀ limit, prepared = some limit → limit = u.objectiveLimit)
      fun _ _ => True := by
  have hends : Ends sync lp (fun _ t => t = u) fun _ _ => True := by
    unfold Ends
    rw [hsync]
  rw [prepareSolve, Ends.bind_iff]
  refine hends.mono_ok ?_
  rintro _ _ rfl
  rename_i u
  rw [Ends.bind_iff, Ends.get_iff]
  split
  · exact ⟨refl u, fun _ hnone => by cases hnone⟩
  rw [Ends.bind_iff]
  refine (Attempts.onSolver _ u).mono ?_ fun _ _ _ => trivial
  rintro _ _ ⟨s₁, rfl⟩
  rw [Ends.bind_iff]
  refine (Attempts.chooseStart a _).mono ?_ fun _ _ _ => trivial
  rintro _ _ ⟨s₂, rfl⟩
  rw [Ends.bind_iff, Ends.get_iff, Ends.bind_iff]
  refine (Attempts.onSolver _ _).mono ?_ fun _ _ _ => trivial
  rintro _ _ ⟨s₃, rfl⟩
  rw [Ends.bind_iff, Ends.get_iff, Ends.bind_iff]
  refine (Attempts.onSolver _ _).mono ?_ fun _ _ _ => trivial
  rintro _ _ ⟨s₄, rfl⟩
  exact ⟨⟨s₄, rfl⟩, fun _ hlimit => (Option.some.inj hlimit).symm⟩

/-- A solve that reports an exceeded limit with a proof leaves no feasible point below the limit. -/
theorem Certifiable.ends_solveAnd (hsync : sync.run.run lp = (.ok (), u)) (h : u.Certifiable)
    (hσ : Solver.ReportsNumbers σ) (write : Bool) (a : Approximation) :
    Ends (solveAnd write a) lp
      (fun x _ => x.1.ProvesLimit → u.objectiveLimit ≠ .posInf ∧ u.NoneBelow u.objectiveLimit)
      fun _ _ => True := by
  rw [solveAnd_phases, Ends.bind_iff]
  refine (ends_prepareSolve_handled hsync a).mono_ok ?_
  rintro prepared _ ⟨⟨s, rfl⟩, hprepared⟩
  have hready : Certifiable { u with solver := s } := h.congr rfl rfl rfl
  exact (hready.ends_runPrepared hσ hprepared write a).mono_ok fun x t ht hproves =>
    (ht hproves).imp_right fun hnone => hnone.congr rfl rfl rfl

/-! ## The cutoff bound -/

/-- The cutoff bound is the same. -/
def SameCutoff (lp t : Relaxation σ) : Prop := t.cutoff = lp.cutoff

instance : IsPreorder (Relaxation σ) SameCutoff where
  refl _ := rfl
  trans _ _ _ h h' := Eq.trans h' h

theorem sameCutoff_solveAnd (write : Bool) (a : Approximation) :
    Along SameCutoff (solveAnd write a : RelaxationM σ (SolveResult × Approximation)) := by
  rw [solveAnd_eq]
  exact .bind ((informed_sync updates_whatever).mono fun _ _ => Informed.cutoff) fun _ =>
    (consulted_solveSynced respects_whatever write a).mono fun _ _ => Consulted.cutoff

/-! ## Exceeded limits -/

/-- With some objective for the columns that are not active, no feasible point is below the cutoff
bound. -/
def Exceeded (lp : Relaxation σ) (loose : Extended) : Prop :=
  ∀ x, lp.IsFeasible x → lp.cutoff ≤ lp.costAt x + loose

theorem Summed.exists_looseObjective (h : lp.Summed) (hfinite : lp.loose.isInfinite = false) :
    ∃ l, lp.looseObjective = finite l :=
  ⟨_, (ObjectiveSum.value_of_finite (by simpa [ObjectiveSum.isInfinite] using hfinite)).trans
    h.sums.loose.finite⟩

/-- The objective limit is what remains of the cutoff bound without the loose objective. -/
theorem Summed.exceeded (h : lp.Summed) (hlimit : lp.objectiveLimit ≠ .posInf)
    (hnone : lp.NoneBelow lp.objectiveLimit) : lp.Exceeded lp.looseObjective := by
  intro x hx
  have hbelow := hnone x hx
  rw [objectiveLimit] at hlimit hbelow
  split at hlimit
  · exact (hlimit rfl).elim
  next hneither =>
  rw [if_neg hneither] at hbelow
  rw [Bool.not_eq_true, Bool.or_eq_false_iff] at hneither
  obtain ⟨l, hl⟩ := h.exists_looseObjective hneither.2
  obtain ⟨k, hk⟩ := Extended.isFinite_iff.mp (by simpa [Extended.isInfinite] using hneither.1)
  rw [hl, hk, Extended.finite_sub_finite] at hbelow
  rw [hl, hk]
  simpa using Extended.finite_add_le_add hbelow (Extended.le_refl (finite l))

theorem Exceeded.transport {loose : Extended} (h : lp.Exceeded loose) (hsame : SameActive lp t)
    (hlp : lp.Coherent) (ht : t.Coherent) (hcutoff : t.cutoff ≤ lp.cutoff) : t.Exceeded loose := by
  intro x hx
  rw [hsame.costAt_eq]
  exact Extended.le_trans hcutoff (h x (hsame.symm.isFeasible ht hlp hx))

theorem Exceeded.mono {loose loose' : Extended} (h : lp.Exceeded loose) (hle : loose ≤ loose') :
    lp.Exceeded loose' := fun x hx =>
  Extended.le_trans (h x hx) (Extended.add_le_add (Extended.le_refl _) hle)

/-! ## What keeps an exceeded limit -/

/-- If an exceeded objective limit is reported, then it was before, the active linear program is the
same, and the cutoff bound is no larger. -/
def Persists (lp t : Relaxation σ) : Prop :=
  t.status = .objectiveLimit →
    lp.status = .objectiveLimit ∧ SameActive lp t ∧ t.cutoff ≤ lp.cutoff

instance : IsPreorder (Relaxation σ) Persists where
  refl lp h := ⟨h, refl lp, Extended.le_refl _⟩
  trans lp t u h h' hu := by
    obtain ⟨ht, hsame', hcutoff'⟩ := h' hu
    obtain ⟨hlp, hsame, hcutoff⟩ := h ht
    exact ⟨hlp, IsTrans.trans _ _ _ hsame hsame', Extended.le_trans hcutoff' hcutoff⟩

/-- A larger cutoff bound makes an exceeded limit obsolete. -/
theorem ends_setCutoff_exceeded (cutoff : Extended) (lp : Relaxation σ) :
    Ends (setCutoff cutoff) lp
      (fun _ t => t.status = .objectiveLimit → lp.status = .objectiveLimit ∧ t.cutoff ≤ lp.cutoff)
      fun _ _ => False := by
  rw [setCutoff, Ends.bind_iff, Ends.get_iff]
  split
  · exact fun hstatus => by cases hstatus
  · next hkept =>
    intro hstatus
    have hlp : lp.status = .objectiveLimit := hstatus
    simp only [hlp, beq_self_eq_true, Bool.and_true, decide_eq_true_eq, Extended.lt_iff_not_le,
      not_not] at hkept
    exact ⟨hlp, hkept⟩

theorem Remembers.exceeded {p : Prop} (h : Remembers p lp t) (hstatus : t.status = .objectiveLimit) :
    lp.status = .objectiveLimit ∧ t.cutoff ≤ lp.cutoff := by
  refine ⟨?_, h.cutoff ▸ Extended.le_refl _⟩
  rcases h.outcome with ⟨-, hsame⟩ | ⟨-, hobsolete⟩
  · exact hsame ▸ hstatus
  · cases hobsolete.status.symm.trans hstatus

/-- An action is permitted and succeeds, and it gives no answer. -/
def Proceeds (lp : Relaxation σ) (action : Action) : Prop :=
  lp.Permits action ∧ lp.accepts (perform action) = true ∧ action.answers = false

instance (lp : Relaxation σ) (action : Action) : Decidable (lp.Proceeds action) :=
  inferInstanceAs (Decidable (_ ∧ _ ∧ _))

theorem Coherent.persists_perform (hlp : lp.Coherent) (ha : lp.Proceeds action) :
    Persists lp (lp.after (Relaxation.perform action)) := by
  obtain ⟨hpermits, haccepts, hanswers⟩ := ha
  have hrun := run_of_accepts haccepts
  intro hstatus
  have hdive (problem : Problem) : action ≠ .endDive problem := by
    rintro rfl
    cases hanswers
  have hsame : SameActive lp (lp.after (Relaxation.perform action)) :=
    ((ends_obsolete_or_same hlp hpermits hdive).of_ok hrun).resolve_left fun hobsolete =>
      by cases hobsolete.status.symm.trans hstatus
  suffices hkept : lp.status = .objectiveLimit ∧
      (lp.after (Relaxation.perform action)).cutoff ≤ lp.cutoff from ⟨hkept.1, hsame, hkept.2⟩
  cases hconcerns : action.concernsSolution with
  | false => exact ((remembers_perform action hconcerns lp).of_ok hrun).exceeded hstatus
  | true =>
    cases action with
    | setCutoff cutoff => exact (ends_setCutoff_exceeded cutoff lp).of_ok hrun hstatus
    | storeSolution =>
      obtain ⟨u, hu, heq⟩ := (ends_storeSolution lp).of_ok hrun
      rw [heq] at hstatus ⊢
      exact hu.exceeded hstatus
    | _ => simp [Action.answers, Action.concernsSolution] at hanswers hconcerns

/-- No single action that proceeds makes a bound invalid, and so no run of them does. -/
theorem Coherent.persists_performAll (hlp : lp.Coherent) (hlater : Throughout Proceeds lp later) :
    (lp.performAll later).Coherent ∧ Persists lp (lp.performAll later) := by
  induction later generalizing lp with
  | nil => exact ⟨hlp, refl lp⟩
  | cons a rest ih =>
    obtain ⟨hcoherent, hpersists⟩ := ih (hlp.perform hlater.1.1) hlater.2
    exact ⟨hcoherent, IsTrans.trans _ _ _ (hlp.persists_perform hlater.1) hpersists⟩

/-! ## Runs -/

/-- After a solve that reports an exceeded limit with a proof, no feasible point is below the cutoff
bound. -/
theorem Tracked.exceeded_of_solveAnd {write : Bool} {a a' : Approximation} {result : SolveResult}
    (hlp : lp.Tracked) (hsummed : lp.Summed) (hrows : lp.SensibleRows)
    (hσ : Solver.ReportsNumbers σ) (hsync : sync.run.run lp = (.ok (), u)) (hlinked : u.AllLinked)
    (hsolve : (solveAnd write a).run.run lp = (.ok (result, a'), v)) (hproves : result.ProvesLimit) :
    v.Coherent ∧ v.Exceeded v.looseObjective := by
  obtain ⟨htracked, hsynced⟩ := (ends_sync hlp).of_ok hsync
  have hsummedU : u.Summed := ⟨htracked.coherent,
    (hsummed.ends_perform (a := .sync) fun _ hc => by cases hc).of_ok hsync⟩
  have hrowsU : u.SensibleRows := (bears_sensibleRows.sync lp).of_ok hsync hrows
  have hproper := htracked.coherent.sound.proper hsummedU.sums.sensible hrowsU
  have hcertifiable := htracked.certifiable hsynced hproper hlinked
  obtain ⟨hlimit, hnone⟩ :=
    (hcertifiable.ends_solveAnd hsync hσ write a).of_ok hsolve hproves
  -- Neither bringing the solver up to date nor running it touches the active linear program.
  obtain ⟨hu, hsameU⟩ := (hlp.coherent.ends_sameActive along_sync
    (sameLines_of_intact intact_sync)).of_ok hsync
  obtain ⟨hv, hsameV⟩ := (hlp.coherent.ends_sameActive (bears_carries.solveAnd write a)
    (sameLines_of_intact (intact_solveAnd write a))).of_ok hsolve
  have hloose : v.looseObjective = u.looseObjective := by
    rw [looseObjective, looseObjective, ((intact_solveAnd write a _).of_ok hsolve).loose,
      ((intact_sync _).of_ok hsync).loose]
  have hcutoff : v.cutoff = u.cutoff := ((sameCutoff_solveAnd write a _).of_ok hsolve).trans
    ((remembers_sync _).of_ok hsync).cutoff.symm
  have hsame : SameActive u v := IsTrans.trans _ _ _ hsameU.symm hsameV
  have hexceeded := (hsummedU.exceeded hlimit hnone).transport hsame hu hv
    (hcutoff ▸ Extended.le_refl _)
  exact ⟨hv, hloose ▸ hexceeded⟩

/-- Whatever was done to a relaxation before, when a solve proves that the objective limit is exceeded,
and for as long as this is reported while other things are done than solving again, no feasible point
is below the cutoff bound: with the loose objective that there was at the solve, and with the current
one where that is no smaller. -/
theorem performAll_exceeded {solver : σ} {settings : Settings} {start : Relaxation σ}
    {write : Bool} {a a' : Approximation} {result : SolveResult}
    (hσ : Solver.ReportsNumbers σ) (hcreate : create solver settings = .ok start)
    (hactions : Throughout Permits start actions)
    (hsync : sync.run.run (start.performAll actions) = (.ok (), u))
    (hlinked : u.AllLinked)
    (hsolve : (solveAnd write a).run.run (start.performAll actions) = (.ok (result, a'), v))
    (hproves : result.ProvesLimit) (hlater : Throughout Proceeds v later)
    (hreported : (v.performAll later).status = .objectiveLimit) :
    let t := v.performAll later
    t.Exceeded v.looseObjective ∧
      (v.looseObjective ≤ t.looseObjective → t.Exceeded t.looseObjective) := by
  intro t
  have hlp := (tracked_create hcreate).performAll hactions
  have hsummed := (summed_create hcreate).performAll hactions
  have hrows := sensibleRows_performAll hcreate hactions
  obtain ⟨hv, hexceeded⟩ :=
    hlp.exceeded_of_solveAnd hsummed hrows hσ hsync hlinked hsolve hproves
  obtain ⟨ht, hpersists⟩ := hv.persists_performAll hlater
  obtain ⟨-, hsame, hcutoff⟩ := hpersists hreported
  have hlasting : t.Exceeded v.looseObjective := hexceeded.transport hsame hv ht hcutoff
  exact ⟨hlasting, hlasting.mono⟩

/-- The values of the exact simplex solver are rational. -/
theorem reportsNumbers_simplex : Solver.ReportsNumbers Simplex := fun s solution h => by
  change s.solution = .ok solution at h
  rw [Simplex.solution] at h
  cases hcurrent : s.currentResult with
  | error e =>
    rw [hcurrent] at h
    cases h
  | ok r =>
    rw [hcurrent] at h
    cases h
    exact ⟨Simplex.isFinite_toValues, Simplex.isFinite_toValues⟩

/-- A column that is created has no lower bound for its contribution, and the exceeded limit is still
reported. -/
example :
    let v := fresh.performAll [
      .createColumn openProblem ⟨0⟩, .addColumn ⟨0⟩, .setCutoff 2, .solve .empty]
    let later : List Action := [.createColumn openProblem ⟨1⟩]
    let t := v.performAll later
    v.status = .objectiveLimit ∧ v.looseObjective = 0 ∧ Throughout Proceeds v later ∧
      t.status = .objectiveLimit ∧ t.objective = .posInf ∧ t.looseObjective = .negInf := by
  decide +kernel

end Relaxation

end CertifiedLp
