import Mathlib
import CertifiedLp.Proofs.Relaxation.Removals
import CertifiedLp.Proofs.Extended.Laws

/-!
# Objective values of columns at their best bounds

The pseudo objective value is the sum, over all columns, of the objective times the best bound, and
the loose objective value the same sum over the columns that are not active. Either is negative
infinity as soon as one of the products is infinite.
-/

namespace CertifiedLp

namespace ObjectiveSum

theorem value_of_infinite {s : ObjectiveSum} (h : 0 < s.nrInfinite) : s.value = .negInf :=
  if_pos (decide_eq_true h)

theorem value_of_finite {s : ObjectiveSum} (h : s.nrInfinite = 0) : s.value = s.finite :=
  if_neg (by simp [isInfinite, h])

/-- A sum over some columns, as a sum over all of them. -/
theorem sum_map_filter (cs : List ColumnRef) (p : ColumnRef → Bool) (f : ColumnRef → Rat) :
    ((cs.filter p).map f).sum = (cs.map fun c => if p c then f c else 0).sum := by
  induction cs with
  | nil => rfl
  | cons c cs ih => cases hc : p c <;> simp [hc, ih]

/-- The value of an exact sum of the contributions of some columns. -/
theorem Totals.value_eq {s : ObjectiveSum} {n : Nat} {f : ColumnRef → Option Extended}
    {p : ColumnRef → Bool} (h : s.Totals n fun c => if p c then f c else some 0)
    (hproper : ∀ c, c.index < n → Proper (f c)) :
    s.value = Extended.sum
      ((((List.range n).map ColumnRef.mk).filter p).map fun c => (f c).getD .negInf) := by
  have hmem {c : ColumnRef} : c ∈ ((List.range n).map ColumnRef.mk).filter p ↔
      c.index < n ∧ p c = true := by
    rw [List.mem_filter, List.mem_map]
    exact and_congr_left fun _ =>
      ⟨fun ⟨i, hi, hc⟩ => hc ▸ List.mem_range.mp hi, fun hc => ⟨c.index, List.mem_range.mpr hc, rfl⟩⟩
  by_cases hinfinite : ∃ c : ColumnRef, (c.index < n ∧ p c = true) ∧ f c = none
  · obtain ⟨c, hc, hnone⟩ := hinfinite
    have hcounted := h.nrInfinite_pos hc.1 (by rw [if_pos hc.2, hnone])
    rw [value_of_infinite hcounted]
    refine ((Extended.sum_eq_negInf_iff fun x hx => ?_).mpr ?_).symm
    · obtain ⟨d, hd, rfl⟩ := List.mem_map.mp hx
      cases hfd : f d with
      | none => exact fun heq => nomatch heq
      | some y =>
        rintro rfl
        exact nomatch hproper d (hmem.mp hd).1 _ hfd
    · exact List.mem_map.mpr ⟨c, hmem.mpr hc, by rw [hnone]; rfl⟩
  · have hsome {c : ColumnRef} (hc : c.index < n ∧ p c = true) :
        ∃ q, f c = some (.finite q) := by
      obtain ⟨y, hy⟩ := Option.ne_none_iff_exists'.mp fun hnone => hinfinite ⟨c, hc, hnone⟩
      obtain ⟨q, rfl⟩ := Extended.isFinite_iff.mp (hproper c hc.1 y hy)
      exact ⟨q, hy⟩
    have hzero : s.nrInfinite = 0 := by
      rw [h.nrInfinite]
      refine Finset.sum_eq_zero fun i hi => if_neg ?_
      split
      · next hp =>
        obtain ⟨q, hq⟩ := hsome ⟨Finset.mem_range.mp hi, hp⟩
        simp [hq]
      · simp
    rw [value_of_finite hzero, h.finite, Extended.sum_eq_finite fun x hx => ?_, List.map_map,
      sum_map_filter, List.map_map]
    · refine congrArg Extended.finite (congrArg List.sum (List.map_congr_left fun i hi => ?_))
      simp only [Function.comp]
      split
      · next hp =>
        obtain ⟨q, hq⟩ := hsome ⟨List.mem_range.mp hi, hp⟩
        simp [hq]
      · rfl
    · obtain ⟨c, hc, rfl⟩ := List.mem_map.mp hx
      obtain ⟨q, hq⟩ := hsome (hmem.mp hc)
      rw [hq]
      rfl

end ObjectiveSum

/-! ## Columns at their best bounds -/

namespace ColumnSpec

variable {spec : ColumnSpec}

/-- The objective coefficient times the bound that is best for a minimization: the lower bound for a
positive and the upper bound for a negative coefficient, and zero without an objective. -/
def bestProduct (spec : ColumnSpec) : Extended :=
  if 0 < spec.objective then spec.objective * spec.bounds.lower
  else if spec.objective < 0 then spec.objective * spec.bounds.upper
  else 0

/-- What a column contributes is that product, which is negative infinity if it is infinite. -/
theorem Sensible.bestProduct_eq (h : spec.Sensible) :
    spec.bestProduct = spec.bestObjective?.getD .negInf := by
  have hlower := h.bounds .lower
  have hupper := h.bounds .upper
  obtain ⟨q, hq⟩ := Extended.isFinite_iff.mp (by simpa [Extended.isInfinite] using h.objective)
  rw [bestProduct, bestObjective?, bestSide?]
  by_cases hpositive : 0 < spec.objective
  · rw [if_pos hpositive, if_pos (Extended.isPositive_iff.mpr hpositive)]
    rw [hq, Extended.zero_def, Extended.finite_lt_finite] at hpositive
    cases hbound : spec.bounds.lower with
    | negInf => simp [hq, Interval.get, hbound, Extended.finite_mul_negInf_of_pos hpositive]
    | finite b => simp [hq, Interval.get, hbound]
    | posInf => simp [Side.allows, Interval.get, hbound] at hlower
  · rw [if_neg hpositive, if_neg (mt Extended.isPositive_iff.mp hpositive)]
    by_cases hnegative : spec.objective < 0
    · rw [if_pos hnegative, if_pos (Extended.isNegative_iff.mpr hnegative)]
      rw [hq, Extended.zero_def, Extended.finite_lt_finite] at hnegative
      cases hbound : spec.bounds.upper with
      | negInf => simp [Side.allows, Interval.get, hbound] at hupper
      | finite b => simp [hq, Interval.get, hbound]
      | posInf => simp [hq, Interval.get, hbound, Extended.finite_mul_posInf_of_neg hnegative]
    · rw [if_neg hnegative, if_neg (mt Extended.isNegative_iff.mp hnegative)]
      rfl

/-- An infinite product of a sensible column is negative infinity. -/
theorem Sensible.isInfinite_bestProduct (h : spec.Sensible) :
    spec.bestProduct.isInfinite = true ↔ spec.bestProduct = .negInf := by
  rw [h.bestProduct_eq]
  cases hbest : spec.bestObjective? with
  | none => simp
  | some y =>
    have hfinite := h.proper y hbest
    simp only [Option.getD_some, Extended.isInfinite_iff, hfinite]
    cases y <;> simp_all

end ColumnSpec

namespace Relaxation

variable {σ : Type} [Solver σ] {lp : Relaxation σ} {solver : σ} {settings : Settings}
variable {actions : List Action}

/-- The columns that are not active. -/
def looseColumns (lp : Relaxation σ) : List ColumnRef :=
  lp.matrix.columnRefs.filter fun c => !(lp.matrix.column c).isActive

/-- A value is the sum of what some columns contribute at their best bounds, and it is negative
infinity exactly if one of these contributions is infinite. -/
structure SumsUp (lp : Relaxation σ) (cs : List ColumnRef) (value : Extended) : Prop where
  eq_sum : value = Extended.sum (cs.map fun c => (lp.matrix.column c).spec.bestProduct)
  negInf_iff : value = .negInf ↔
    ∃ c ∈ cs, (lp.matrix.column c).spec.bestProduct.isInfinite = true

theorem Aggregated.sumsUp (hlp : lp.Aggregated) {s : ObjectiveSum} {p : ColumnRef → Bool}
    (h : s.Totals lp.matrix.columns.size fun c => if p c then lp.contribution c else some 0) :
    lp.SumsUp (lp.matrix.columnRefs.filter p) s.value := by
  have hsensible {c : ColumnRef} (hc : c ∈ lp.matrix.columnRefs.filter p) :
      (lp.matrix.column c).spec.Sensible :=
    hlp.sensible c (ConstraintMatrix.mem_columnRefs.mp (List.mem_of_mem_filter hc))
  have hsum : s.value = Extended.sum ((lp.matrix.columnRefs.filter p).map fun c =>
      (lp.matrix.column c).spec.bestProduct) := by
    rw [h.value_eq fun c hc => hlp.proper hc]
    exact congrArg Extended.sum
      (List.map_congr_left fun c hc => (hsensible hc).bestProduct_eq.symm)
  refine ⟨hsum, ?_⟩
  rw [hsum, Extended.sum_eq_negInf_iff fun x hx => ?_, List.mem_map]
  · exact exists_congr fun c => and_congr_right fun hc =>
      (hsensible hc).isInfinite_bestProduct.symm
  · obtain ⟨c, hc, rfl⟩ := List.mem_map.mp hx
    intro heq
    have hinfinite := (hsensible hc).isInfinite_bestProduct.mp (by rw [heq]; rfl)
    exact nomatch heq.symm.trans hinfinite

theorem Summed.sumsUp_pseudo (hlp : lp.Summed) : lp.SumsUp lp.matrix.columnRefs lp.pseudoObjective := by
  have hall := hlp.sums.sumsUp (p := fun _ => true) (hlp.sums.pseudo.congr fun _ _ => if_pos rfl)
  rwa [List.filter_eq_self.mpr fun _ _ => rfl] at hall

theorem Summed.sumsUp_loose (hlp : lp.Summed) : lp.SumsUp lp.looseColumns lp.looseObjective := by
  refine hlp.sums.sumsUp (hlp.sums.loose.congr fun c _ => ?_)
  rw [contributionOutside]
  have hactive := hlp.coherent.isActive_column_iff c
  by_cases hmem : c ∈ lp.columns
  · rw [if_pos hmem, if_neg (by simp [hactive.mpr hmem])]
  · rw [if_neg hmem, if_pos (by simpa using mt hactive.mp hmem)]

/-- Whatever is done to a relaxation, and also where it fails, the pseudo and the loose objective are
the sums of what all columns and the inactive columns contribute at their best bounds, and no action
removes an infinite contribution that is not counted. -/
theorem performAll_objectives (hcreate : create solver settings = .ok lp)
    (hactions : Throughout Permits lp actions) :
    let t := lp.performAll actions
    t.SumsUp t.matrix.columnRefs t.pseudoObjective ∧ t.SumsUp t.looseColumns t.looseObjective ∧
      ∀ remove : Removal, remove.Guarded → ∀ a, t.Permits a →
        (performBy remove a).run.run t = (perform a).run.run t :=
  have hlp := (summed_create hcreate).performAll hactions
  ⟨hlp.sumsUp_pseudo, hlp.sumsUp_loose, fun _ hremove _ ha => hlp.runsAs_performBy ha hremove⟩

/-! ### Infinite contributions -/

/-- A removal that lets the count start again from the largest machine word, instead of letting it
fall below zero. -/
def wrappingRemoval : Removal := fun s x =>
  if x = none ∧ s.nrInfinite = 0 then { s with nrInfinite := 2 ^ 64 - 1 } else s.remove x

theorem guarded_wrappingRemoval : Removal.Guarded wrappingRemoval := fun _ _ h =>
  if_neg fun hzero => (h hzero.1).ne' hzero.2

/-- A problem with two variables, of which the second may grow without end. -/
def openProblem : Problem :=
  ⟨#[⟨"x", ⟨3, ⟨1, 4⟩⟩, .continuous, none⟩, ⟨"y", ⟨-1, ⟨0, .posInf⟩⟩, .continuous, none⟩]⟩

/-- The second column enters the linear program, and cannot enter it twice. In a dive it gets an
upper bound, and the first column another objective. Both are brought back at the end of the dive. -/
def openActions : List Action := [
  .createColumn openProblem ⟨0⟩, .createColumn openProblem ⟨1⟩, .addColumn ⟨1⟩, .addColumn ⟨1⟩,
  .startDive true, .changeBound ⟨1⟩ .upper 5, .changeObjective ⟨0⟩ (-2), .endDive openProblem]

theorem performAll_objectives_open :
    let t := fresh.performAll openActions
    t.SumsUp t.matrix.columnRefs .negInf ∧ t.SumsUp [⟨0⟩] 3 ∧
      (performBy wrappingRemoval (.changeBound ⟨1⟩ .upper 2)).run.run t =
        (perform (.changeBound ⟨1⟩ .upper 2)).run.run t ∧
      (t.after (perform (.changeBound ⟨1⟩ .upper 2))).pseudoObjective = 1 := by
  intro t
  obtain ⟨hpseudo, hloose, hruns⟩ :=
    performAll_objectives create_fresh (show Throughout Permits fresh openActions by decide +kernel)
  have hcolumns : t.looseColumns = [⟨0⟩] := by decide +kernel
  have hinfinite : t.pseudoObjective = .negInf := by decide +kernel
  have hfinite : t.looseObjective = 3 := by decide +kernel
  rw [hinfinite] at hpseudo
  rw [hcolumns, hfinite] at hloose
  exact ⟨hpseudo, hloose, hruns _ guarded_wrappingRemoval _ (by decide +kernel), by decide +kernel⟩

end Relaxation

end CertifiedLp
