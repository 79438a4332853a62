import Mathlib
import CertifiedLp.Proofs.Simplex.Agreeing
import CertifiedLp.Proofs.Simplex.Sizes

/-!
# Starting again from a final basis

A start from the statuses of a tableau leads back to that tableau, up to the order of its rows. It
pivots the wanted variables into the basis, one after the other. For each of them there is a row to
take it, because otherwise it would depend on the other wanted variables
(`Solves.exists_exchange`). No wanted variable leaves the basis again, so that in the end exactly the
wanted variables are basic.

A solve that came to a conclusion can therefore be repeated from its last basis without an iteration.
The assumption about time is that of `Budget.exhausted?`: solving is instantaneous, so that the second
solve has as much time as the first one. It matters for rays only, because a limit is looked at before a
ray is reported, but not before an optimum is, or that there is no feasible point.
-/

namespace CertifiedLp

open Extended (finite)

theorem Bounds.feasibleStatus_eq_self {b : Bounds} {s : BasisStatus} (h : b.Fits s)
    (hs : s ≠ .basic) : b.feasibleStatus s = s := by
  cases s with
  | lower => exact if_pos h
  | basic => exact absurd rfl hs
  | upper => exact if_pos h
  | zero => simp [feasibleStatus, h.1, h.2]

namespace Tableau

variable {m n : Nat} {p : StandardForm m n} {t t' : Tableau m n} {i j : Fin (n + m)}
variable {target : Vector BasisStatus (n + m)}

/-! ## Rebuilding a basis -/

/-- A variable of another basis can take the place of one that is not in that basis. -/
theorem Solves.exists_exchange (h : t.Solves p) (h' : t'.Solves p)
    (hj' : t'.statusOf j = .basic) (hj : t.statusOf j ≠ .basic) :
    ∃ k, t'.statusOf (t.basicVar k) ≠ .basic ∧ t.coefficient k j ≠ 0 := by
  by_contra hnone
  push Not at hnone
  -- Along the direction of the variable, all that is outside of the other basis would stay at zero.
  have hdirection : t'.Holds (t.direction j true) :=
    (h'.holds_iff _).mpr ((h.holds_iff _).mp (h.holds_direction true hj))
  have hzero : t'.Holds (Vector.ofFn fun _ => 0) := by
    rw [Tableau.holds_iff]
    intro k
    simp only [get_ofFn, mul_zero, Finset.sum_const_zero]
  have hsame := h'.eq_of_holds hdirection hzero fun i hi => by
    rw [get_ofFn]
    by_cases hbasic : t.statusOf i = .basic
    · obtain ⟨k, rfl⟩ := (h.basic_iff i).mp hbasic
      rw [h.get_direction_basicVar, rate_eq, hnone k hi, zero_mul, neg_zero]
    · rw [h.get_direction_of_ne_basic true hbasic, if_neg]
      rintro rfl
      exact hi hj'
  have hmoves : (t.direction j true).get j = if j = j then pace true else 0 :=
    h.get_direction_of_ne_basic true hj
  rw [hsame, get_ofFn, if_pos rfl] at hmoves
  exact pace_ne_zero true hmoves.symm

/-- A wanted variable stays in the basis. -/
theorem statusOf_enter_of_basic (hi : target.get i = .basic)
    (hbasic : t.statusOf i = .basic) (j : Fin (n + m)) :
    (t.enter target j).statusOf i = .basic := by
  rw [Tableau.enter]
  split
  · exact hbasic
  · split
    · next k hfind =>
      have htest := List.find?_some hfind
      rw [Bool.and_eq_true, decide_eq_true_eq, decide_eq_true_eq] at htest
      have hne : t.basicVar k ≠ i := by
        rintro rfl
        exact htest.1 hi
      rw [statusOf_pivot, if_neg hne, hbasic, ite_self]
    · exact hbasic

/-- A wanted variable enters the basis, if what is wanted is a basis. -/
theorem Solves.statusOf_enter (h : t.Solves p) (h' : t'.Solves p) (hj : t'.statusOf j = .basic) :
    (t.enter t'.status j).statusOf j = .basic := by
  rw [Tableau.enter]
  split
  · next hidle => exact hidle.resolve_left (not_not_intro hj)
  · next hwanted =>
    rw [not_or] at hwanted
    obtain ⟨k, hleaves, hcoefficient⟩ := h.exists_exchange h' hj hwanted.2
    split
    · next l _ => rw [statusOf_pivot, if_neg (h.ne_basicVar hwanted.2 l), if_pos rfl]
    · next hfind =>
      have htest := List.find?_eq_none.mp hfind k (List.mem_finRange k)
      rw [Bool.and_eq_true, decide_eq_true_eq, decide_eq_true_eq] at htest
      exact absurd ⟨hleaves, hcoefficient⟩ htest

theorem statusOf_foldl_enter_of_basic (hi : target.get i = .basic)
    (hbasic : t.statusOf i = .basic) (js : List (Fin (n + m))) :
    (js.foldl (Tableau.enter target) t).statusOf i = .basic := by
  induction js generalizing t with
  | nil => exact hbasic
  | cons j js ih => exact ih (statusOf_enter_of_basic hi hbasic j)

theorem Solves.statusOf_foldl_enter (h : t.Solves p) (h' : t'.Solves p) {js : List (Fin (n + m))}
    (hmem : j ∈ js) (hj : t'.statusOf j = .basic) :
    (js.foldl (Tableau.enter t'.status) t).statusOf j = .basic := by
  induction js generalizing t with
  | nil => exact absurd hmem List.not_mem_nil
  | cons i js ih =>
    rcases List.mem_cons.mp hmem with rfl | hmem
    · exact statusOf_foldl_enter_of_basic hj (h.statusOf_enter h' hj) js
    · exact ih (h.enter _ i) hmem

/-- There are as many basic variables as rows. -/
theorem Solves.card_basic (h : t.Solves p) :
    (Finset.univ.filter fun j => t.statusOf j = .basic).card = m := by
  have himage : (Finset.univ.filter fun j => t.statusOf j = .basic) =
      Finset.univ.image t.basicVar := by
    ext j
    simp [h.basic_iff]
  rw [himage, Finset.card_image_of_injective _ h.basicVar_injective, Finset.card_univ,
    Fintype.card_fin]

/-- A basis that is part of another one is all of it. -/
theorem Solves.basic_iff_of_imp (h : t.Solves p) (h' : t'.Solves p)
    (himp : ∀ j, t'.statusOf j = .basic → t.statusOf j = .basic) (j : Fin (n + m)) :
    t.statusOf j = .basic ↔ t'.statusOf j = .basic := by
  have hsubset : (Finset.univ.filter fun j => t'.statusOf j = .basic) ⊆
      Finset.univ.filter fun j => t.statusOf j = .basic := fun j hj =>
    Finset.mem_filter.mpr ⟨Finset.mem_univ j, himp j (Finset.mem_filter.mp hj).2⟩
  have heq := Finset.eq_of_subset_of_card_le hsubset (by rw [h.card_basic, h'.card_basic])
  simpa using (Finset.ext_iff.mp heq j).symm

/-- From the statuses of a valid tableau, that tableau is built again. -/
theorem Valid.agree_crash (h' : t'.Valid p) (h : t.Solves p) :
    Agree p t' (t.crash p t'.status) where
  left := h'.toSolves
  right := h.crash _
  status := by
    have hbasic := (h.foldl_enter t'.status (List.finRange (n + m))).basic_iff_of_imp h'.toSolves
      fun j hj => h.statusOf_foldl_enter h'.toSolves (List.mem_finRange j) hj
    refine get_ext fun j => ?_
    rw [crash, get_ofFn]
    split
    · next hj => exact ((hbasic j).mp hj).symm
    · next hj =>
      exact Bounds.feasibleStatus_eq_self (h'.fits j) fun hj' => hj ((hbasic j).mpr hj')

end Tableau

/-! ## A second run -/

/-- A budget that is not used up yet was not used up at the beginning. -/
theorem Budget.exhausted?_zero {b : Budget} {iterations : Nat}
    (h : b.exhausted? iterations = none) : b.exhausted? 0 = none := by
  rw [exhausted?] at h ⊢
  split at h
  · cases h
  · next hiterations =>
    rw [if_neg]
    · exact h
    · rw [Option.any_eq_true] at hiterations ⊢
      rintro ⟨limit, hlimit, hle⟩
      refine hiterations ⟨limit, hlimit, ?_⟩
      rw [decide_eq_true_eq] at hle ⊢
      omega

namespace Tableau

variable {m n : Nat} {p : StandardForm m n} {budget : Budget} {s : Progress m n}

/-- Where the basic variables are within their bounds, no violation is found. -/
theorem Primal.firstViolation?_eq_none {t : Tableau m n} (h : t.Primal p) :
    t.firstViolation? p = none := by
  rw [Option.eq_none_iff_forall_ne_some]
  intro v hv
  have hwithin := Bounds.violated?_eq_none_iff.mpr (h.within (t.basicVar v.row))
  rw [violated?_of_firstViolation? hv] at hwithin
  cases hwithin

theorem exhausted?_of_unbounded {r : Vector Rat n}
    (h : optimizeStep p budget s = .inr (.unbounded r)) :
    budget.exhausted? s.iterations = none := by
  rw [optimizeStep] at h
  dsimp only at h
  split at h
  · cases h
  · split at h
    · cases h
    · next hbudget => exact hbudget

end Tableau

/-- A run came to a result, and was not stopped before. -/
def Outcome.Concluded {m n : Nat} : Outcome m n → Prop
  | .stopped _ | .cycled => False
  | _ => True

namespace StandardForm

variable {m n : Nat} {p : StandardForm m n} {budget : Budget} {limit : Option Rat}
variable {start t t' : Tableau m n}

/-- Only a run that had some budget left finds a ray. -/
theorem exhausted?_of_run_unbounded {r : Vector Rat n}
    (h : (p.run budget limit start).2 = .unbounded r) : budget.exhausted? 0 = none := by
  rw [run] at h
  rcases hrestore : p.restore budget ⟨start, 0⟩ with ⟨s, restored⟩
  rw [hrestore] at h
  cases restored with
  | none => cases h
  | some restored =>
    cases restored with
    | infeasible y => cases h
    | stopped reason => cases h
    | feasible =>
      rcases hoptimize : p.optimize budget s with ⟨s', optimized⟩
      simp only [hoptimize] at h
      cases optimized with
      | none => cases h
      | some optimized =>
        cases optimized with
        | unbounded ray =>
          exact Budget.exhausted?_zero (Tableau.exhausted?_of_unbounded (step_of_iterate hoptimize))
        | stopped reason => cases h
        | optimal => dsimp only at h; split at h <;> cases h

/-- From a tableau that agrees with the last one of a run, a run ends at once in the same way. -/
theorem run_of_ends {outcome : Outcome m n} (hordered : p.Ordered) (hagree : Tableau.Agree p t t')
    (hends : p.Ends limit t outcome) (hconcluded : outcome.Concluded)
    (hbudget : ∀ r, outcome = .unbounded r → budget.exhausted? 0 = none) :
    p.run budget limit t' = (⟨t', 0⟩, outcome) := by
  have hrestored (hprimal : t.Primal p) :
      p.restore budget ⟨t', 0⟩ = (⟨t', 0⟩, some .feasible) := by
    refine iterate_of_done ?_
    have hnone := hagree.firstViolation?_eq_none hprimal.firstViolation?_eq_none
    simp only [Tableau.restoreStep, hnone]
  have hexceeds : p.exceeds limit t' = p.exceeds limit t := by
    rw [exceeds, exceeds, hagree.values_eq]
  have hoptimal (himproving : t.improving? p = none) :
      p.optimize budget ⟨t', 0⟩ = (⟨t', 0⟩, some .optimal) := by
    refine iterate_of_done ?_
    simp only [Tableau.optimizeStep, hagree.improving?_eq, himproving]
  cases outcome with
  | optimal =>
    obtain ⟨hprimal, himproving, hlimit⟩ := hends
    rw [run, hrestored (hprimal hordered)]
    simp only [hoptimal himproving, hexceeds, hlimit, Bool.false_eq_true, if_false]
  | objectiveLimit =>
    obtain ⟨hprimal, himproving, hlimit⟩ := hends
    rw [run, hrestored (hprimal hordered)]
    simp only [hoptimal himproving, hexceeds, hlimit, if_true]
  | infeasible y =>
    obtain ⟨v, hv, hnone, rfl⟩ := hends
    obtain ⟨v', hv', hrow, hside⟩ := hagree.exists_firstViolation? hv
    have hrepairs : t'.firstNonbasic? (t'.repairs p v') = none := by
      rw [hagree.repairs_eq hrow hside, hagree.firstNonbasic?_eq fun _ _ => rfl, hnone]
    have hrestore : p.restore budget ⟨t', 0⟩ =
        (⟨t', 0⟩, some (.infeasible (t.multipliers v))) := by
      refine iterate_of_done ?_
      simp only [Tableau.restoreStep, hv', hrepairs, hagree.multipliers_eq hrow hside]
    rw [run, hrestore]
  | unbounded r =>
    obtain ⟨hprimal, entering, himproving, hblock, rfl⟩ := hends
    have hentering := (Tableau.improving?_eq_some himproving).1
    have hoptimize : p.optimize budget ⟨t', 0⟩ = (⟨t', 0⟩, some (.unbounded
        (t.ray entering (t.improvingDirection p entering)))) := by
      refine iterate_of_done ?_
      have hblock' := hagree.firstBlock?_eq_none hentering hblock
      rw [← hagree.improvingDirection_eq] at hblock' ⊢
      rw [Tableau.improvingDirection] at hblock' ⊢
      simp only [Tableau.optimizeStep, hagree.improving?_eq, himproving, hbudget _ rfl, hblock',
        hagree.ray_eq hentering]
    rw [run, hrestored (hprimal hordered)]
    simp only [hoptimize]
  | stopped reason => exact hconcluded.elim
  | cycled => exact hconcluded.elim

end StandardForm

/-! ## A second solve -/

namespace Tableau

/-- The positions of the basic variables, whatever the order of the rows is. -/
def basicPositions {m n : Nat} (t : Tableau m n) : Finset Nat :=
  Finset.univ.image fun k => (t.basicVar k).val

theorem Agree.basicPositions_eq {m n : Nat} {p : StandardForm m n} {t t' : Tableau m n}
    (h : Agree p t t') : t'.basicPositions = t.basicPositions := by
  ext j
  simp only [basicPositions, Finset.mem_image, Finset.mem_univ, true_and]
  constructor
  · rintro ⟨l, rfl⟩
    obtain ⟨k, hk⟩ := h.symm.exists_row l
    exact ⟨k, congrArg Fin.val hk⟩
  · rintro ⟨k, rfl⟩
    obtain ⟨l, hl⟩ := h.exists_row k
    exact ⟨l, congrArg Fin.val hl⟩

end Tableau

namespace Simplex

variable {s u : Simplex}

/-- A solve only replaces the status of a column. -/
theorem columnAt_solve (s : Simplex) (j : Fin s.nrColumns) :
    s.solve.columnAt (j.cast (nrColumns_solve s).symm) =
      { s.columnAt j with status := s.lastTableau.statusOf (Fin.castAdd s.nrRows j) } := by
  have hcolumns : s.solve.columns = s.columns.mapIdx fun j c =>
      { c with status := (s.lastTableau.status.toArray.extract 0 s.nrColumns).getD j c.status } := rfl
  rw [extract_columns] at hcolumns
  simp only [columnAt, hcolumns, Array.getElem_mapIdx]
  refine congrArg (fun status => ({ s.columnAt j with status } : DenseColumn)) ?_
  simp [Tableau.statusOf, Array.getD_eq_getD_getElem?]

/-- A solve only replaces the status of a row. -/
theorem rowAt_solve (s : Simplex) (i : Fin s.nrRows) :
    s.solve.rowAt (i.cast (nrRows_solve s).symm) =
      { s.rowAt i with status := s.lastTableau.statusOf (Fin.natAdd s.nrColumns i) } := by
  have hrows : s.solve.rows = s.rows.mapIdx fun i r =>
      { r with status := (s.lastTableau.status.toArray.extract s.nrColumns
          s.lastTableau.status.toArray.size).getD i r.status } := rfl
  rw [extract_rows] at hrows
  simp only [rowAt, hrows, Array.getElem_mapIdx]
  refine congrArg (fun status => ({ s.rowAt i with status } : DenseRow)) ?_
  simp [Tableau.statusOf, Array.getD_eq_getD_getElem?]

/-- The basis after a solve is that of its last tableau. -/
theorem basis_solve (s : Simplex) : s.solve.basis =
    { columns := Array.ofFn fun j => s.lastTableau.statusOf (Fin.castAdd s.nrRows j)
      rows := Array.ofFn fun i => s.lastTableau.statusOf (Fin.natAdd s.nrColumns i) } := by
  rw [basis, Basis.mk.injEq]
  constructor
  · refine Array.ext ?_ fun j hj hj' => ?_
    · rw [Array.size_map, Array.size_ofFn]
      exact nrColumns_solve s
    · rw [Array.size_ofFn] at hj'
      rw [Array.getElem_map, Array.getElem_ofFn]
      exact congrArg DenseColumn.status (columnAt_solve s ⟨j, hj'⟩)
  · refine Array.ext ?_ fun i hi hi' => ?_
    · rw [Array.size_map, Array.size_ofFn]
      exact nrRows_solve s
    · rw [Array.size_ofFn] at hi'
      rw [Array.getElem_map, Array.getElem_ofFn]
      exact congrArg DenseRow.status (rowAt_solve s ⟨i, hi'⟩)

/-- A solver holds a linear program in standard form, and is to start from given statuses. -/
structure Poses {m n : Nat} (u : Simplex) (p : StandardForm m n)
    (target : Vector BasisStatus (n + m)) : Prop where
  nrColumns : u.nrColumns = n
  nrRows : u.nrRows = m
  column (j : Fin n) : u.columnAt (j.cast nrColumns.symm) =
    ⟨p.costOf (Fin.castAdd m j), p.boundsOf (Fin.castAdd m j), target.get (Fin.castAdd m j)⟩
  coefficient (i : Fin m) (j : Fin n) :
    u.coefficientAt (i.cast nrRows.symm) (j.cast nrColumns.symm) = p.coefficient i j
  slack (i : Fin m) : p.costOf (Fin.natAdd n i) = 0
  sides (i : Fin m) : (u.rowAt (i.cast nrRows.symm)).sides = p.boundsOf (Fin.natAdd n i)
  status (i : Fin m) : (u.rowAt (i.cast nrRows.symm)).status = target.get (Fin.natAdd n i)

section Poses

variable {p : StandardForm u.nrRows u.nrColumns}
variable {target : Vector BasisStatus (u.nrColumns + u.nrRows)}

theorem Poses.standardForm_eq (h : u.Poses p target) : u.standardForm = p := by
  have hcoefficients : u.standardForm.coefficients = p.coefficients :=
    get_ext fun i => get_ext fun j => (coefficient_standardForm u i j).trans (h.coefficient i j)
  have hbounds : u.standardForm.bounds = p.bounds := get_ext fun j => by
    refine Fin.addCases (fun c => ?_) (fun i => ?_) j
    · exact (boundsOf_column u c).trans (congrArg DenseColumn.bounds (h.column c))
    · exact (boundsOf_row u i).trans (h.sides i)
  have hcost : u.standardForm.cost = p.cost := get_ext fun j => by
    refine Fin.addCases (fun c => ?_) (fun i => ?_) j
    · exact (costOf_column u c).trans (congrArg DenseColumn.objective (h.column c))
    · exact (costOf_row u i).trans (h.slack i).symm
  calc u.standardForm = ⟨p.coefficients, p.bounds, p.cost⟩ := by
        rw [← hcoefficients, ← hbounds, ← hcost]
    _ = p := rfl

theorem Poses.statuses_eq (h : u.Poses p target) : u.statuses = target := get_ext fun j => by
  refine Fin.addCases (fun c => ?_) (fun i => ?_) j
  · rw [statuses, get_append_castAdd, get_ofFn]
    exact congrArg DenseColumn.status (h.column c)
  · rw [statuses, get_append_natAdd, get_ofFn]
    exact h.status i

end Poses

/-- The next solve does not ignore the statuses at hand. -/
def warm (s : Simplex) : Simplex :=
  { s with parameters := { s.parameters with fromScratch := false } }

/-- A solver holds its linear program also after a solve, and is to start from the last statuses. -/
theorem poses_warm_solve (s : Simplex) :
    s.solve.warm.Poses s.standardForm s.lastTableau.status where
  nrColumns := nrColumns_solve s
  nrRows := nrRows_solve s
  column j := by
    rw [costOf_column, boundsOf_column]
    exact columnAt_solve s j
  coefficient i j := by
    rw [coefficient_standardForm]
    exact (congrArg (fun row : DenseRow => row.coefficients.getD j 0) (rowAt_solve s i) :)
  slack i := costOf_row s i
  sides i := by
    rw [boundsOf_row]
    exact (congrArg DenseRow.sides (rowAt_solve s i) :)
  status i := congrArg DenseRow.status (rowAt_solve s i)

/-- What a solve of a linear program in standard form keeps. -/
structure Keeps {m n : Nat} (u : Simplex) (p : StandardForm m n) (final : Tableau m n)
    (outcome : Outcome m n) : Prop where
  result : u.result = some
    { ending := .ofOutcome outcome
      objective := p.objective (final.values p)
      values := (final.values p).toArray
      reducedCosts := (final.reducedCosts p).toArray }
  basis : u.basis =
    { columns := Array.ofFn fun j => final.statusOf (Fin.castAdd m j)
      rows := Array.ofFn fun i => final.statusOf (Fin.natAdd n i) }

theorem keeps_solve (s : Simplex) : s.solve.Keeps s.standardForm s.lastTableau s.run.2 :=
  ⟨rfl, basis_solve s⟩

/-- A solve from given statuses is a run from the tableau that is built from them. -/
theorem Poses.solve {m n : Nat} {p : StandardForm m n} {target : Vector BasisStatus (n + m)}
    {t : Tableau m n} {outcome : Outcome m n} {iterations : Nat}
    (h : u.Poses p target) (hwarm : u.parameters.fromScratch = false)
    (hrun : p.run u.budget (finiteEnd? u.parameters.objectiveLimit)
      ((Tableau.initial p).crash p target) = (⟨t, iterations⟩, outcome)) :
    u.solve.Keeps p t outcome ∧ u.solve.iterations = iterations ∧
      u.startTableau.basicPositions = ((Tableau.initial p).crash p target).basicPositions ∧
      u.startTableau.status.toArray = ((Tableau.initial p).crash p target).status.toArray := by
  obtain rfl := h.nrColumns
  obtain rfl := h.nrRows
  obtain rfl := h.standardForm_eq
  obtain rfl := h.statuses_eq
  have hstart : u.startTableau = (Tableau.initial u.standardForm).crash u.standardForm u.statuses := by
    rw [startTableau, hwarm]
    rfl
  rw [← hstart] at hrun
  have hrun' : u.run = (⟨t, iterations⟩, outcome) := hrun
  have htableau : u.lastTableau = t := by rw [lastTableau, hrun']
  have houtcome : u.run.2 = outcome := by rw [hrun']
  refine ⟨htableau ▸ houtcome ▸ keeps_solve u, ?_, by rw [hstart], by rw [hstart]⟩
  rw [Simplex.solve, hrun']

/-- The answers that a solve comes to when it is not stopped before. -/
def conclusions : List Answer := [.optimal, .objectiveLimit, .infeasible, .unbounded]

/-- Two solvers have the same result, for everyone who asks for it. -/
structure SameResult (s t : Simplex) : Prop where
  /-- The solves ended in the same way. -/
  reports (answer : Answer) : Solver.reports t answer = Solver.reports s answer
  /-- The objective values are the same. -/
  objectiveValue : t.objectiveValue = s.objectiveValue
  /-- The values, dual values, activities and reduced costs are the same. -/
  solution : t.solution = s.solution
  /-- The multipliers that prove infeasibility are the same, if there are any. -/
  farkas : t.farkas = s.farkas
  /-- The direction without end is the same, if there is one. -/
  primalRay : t.primalRay = s.primalRay

theorem SameResult.of_result_eq {t : Simplex} (hresult : t.result = s.result)
    (hcolumns : t.nrColumns = s.nrColumns) : SameResult s t := by
  have hcurrent : t.currentResult = s.currentResult := by rw [currentResult, currentResult, hresult]
  exact {
    reports answer := congrArg (fun r => (r.bind (·.ending.answer?)) == some answer) hresult
    objectiveValue := by rw [Simplex.objectiveValue, Simplex.objectiveValue, hcurrent]
    solution := by rw [Simplex.solution, Simplex.solution, hcurrent, hcolumns]
    farkas := by rw [Simplex.farkas, Simplex.farkas, hcurrent]
    primalRay := by rw [Simplex.primalRay, Simplex.primalRay, hcurrent] }

theorem concluded_of_reports {answer : Answer} (hanswer : answer ∈ conclusions)
    (h : Solver.reports s.solve answer = true) : s.run.2.Concluded := by
  rw [reports_solve] at h
  cases answer with
  | optimal => simp only [h, Outcome.Concluded]
  | objectiveLimit => simp only [h, Outcome.Concluded]
  | infeasible =>
    obtain ⟨y, h⟩ := h
    simp only [h, Outcome.Concluded]
  | unbounded =>
    obtain ⟨r, h⟩ := h
    simp only [h, Outcome.Concluded]
  | iterationLimit => exact absurd hanswer (by decide)
  | timeLimit => exact absurd hanswer (by decide)

/-- A solve that came to a conclusion can be repeated from its last basis: if statuses are not
ignored, exactly that basis is built again, and with it everything that was reported, without an
iteration. Which tableau rows the variables end up in does not matter. No time passes between the
solves. -/
theorem solve_again (s : Simplex) (hs : s.Uncrossed)
    (h : ∃ answer ∈ conclusions, Solver.reports s.solve answer = true) :
    s.solve.warm.startTableau.basicPositions = s.lastTableau.basicPositions ∧
      s.solve.warm.startTableau.status.toArray = s.lastTableau.status.toArray ∧
      s.solve.warm.solve.iterations = 0 ∧
      SameResult s.solve s.solve.warm.solve ∧
      s.solve.warm.solve.basis = s.solve.basis := by
  obtain ⟨answer, hanswer, hreports⟩ := h
  have hagree := s.valid_lastTableau.agree_crash (Tableau.solves_initial s.standardForm)
  have hrun := StandardForm.run_of_ends hs.ordered hagree s.ends_lastTableau
    (concluded_of_reports hanswer hreports)
    fun r hr => StandardForm.exhausted?_of_run_unbounded (show s.run.2 = .unbounded r from hr)
  obtain ⟨hkeeps, hiterations, hpositions, hstatus⟩ := s.poses_warm_solve.solve rfl hrun
  have hresult : s.solve.warm.solve.result = s.solve.result := by
    rw [hkeeps.result, hagree.values_eq, hagree.reducedCosts_eq, s.keeps_solve.result]
  refine ⟨hpositions.trans hagree.basicPositions_eq,
    hstatus.trans (congrArg Vector.toArray hagree.status), hiterations,
    .of_result_eq hresult ((nrColumns_solve _).trans rfl), ?_⟩
  rw [hkeeps.basis, s.keeps_solve.basis]
  simp only [hagree.statusOf]

/-- The first solve moves the second column into the basis before the first one, and the second
solve starts with the first one. The rows of the two tableaux are interchanged, and the optimum,
which is above the objective limit, is the same. -/
theorem solve_again_interchanged :
    let s : Simplex := { empty with
      columns := #[⟨-1, ⟨some 0, some 8⟩, .lower⟩, ⟨-2, ⟨some 0, none⟩, .lower⟩]
      rows := #[⟨#[1, 1], ⟨none, some 10⟩, .basic⟩, ⟨#[1, -1], ⟨some (-4), none⟩, .basic⟩]
      parameters := { Parameters.standard with
        fromScratch := true
        iterationLimit := some 3
        objectiveLimit := finite (-20) } }
    s.Uncrossed ∧ Solver.reports s.solve .objectiveLimit = true ∧ s.solve.iterations = 3 ∧
      s.lastTableau.basic.toList.map Fin.val = [1, 0] ∧
      s.solve.warm.startTableau.basic.toList.map Fin.val = [0, 1] ∧
      s.solve.warm.solve.iterations = 0 ∧ SameResult s.solve s.solve.warm.solve := by
  intro s
  have hs : s.Uncrossed := by decide +kernel
  have hreports : Solver.reports s.solve .objectiveLimit = true := by decide +kernel
  obtain ⟨-, -, hiterations, hsame, -⟩ := solve_again s hs ⟨.objectiveLimit, by decide, hreports⟩
  exact ⟨hs, hreports, by decide +kernel, by decide +kernel, by decide +kernel, hiterations, hsame⟩

end Simplex

end CertifiedLp
