import Mathlib
import CertifiedLp.Proofs.Relaxation.Aggregates

/-!
# Removals of contributions

A sum of contributions counts the infinite ones, and the count falls when one of them is removed.
It never falls below zero: a removal could do anything whatever where nothing infinite was counted,
and the operations on a relaxation would still run as they do.
-/

namespace CertifiedLp

/-! ## Operations that run alike -/

section Runs

variable {ε σ α β : Type} {x y : ExceptT ε (StateM σ) α} {f g : α → ExceptT ε (StateM σ) β} {s : σ}

/-- Two operations have the same run from a state. -/
def RunsAs (x y : ExceptT ε (StateM σ) α) (s : σ) : Prop := x.run.run s = y.run.run s

namespace RunsAs

theorem modify {g h : σ → σ} (hs : g s = h s) :
    RunsAs (modify g : ExceptT ε (StateM σ) PUnit) (modify h) s :=
  congrArg (Prod.mk (Except.ok PUnit.unit)) hs

theorem ite {p : Prop} [Decidable p] {x' y' : ExceptT ε (StateM σ) α} (hx : p → RunsAs x y s)
    (hy : ¬ p → RunsAs x' y' s) : RunsAs (if p then x else x') (if p then y else y') s := by
  split
  · next hp => exact hx hp
  · next hp => exact hy hp

theorem bind (hx : RunsAs x y s)
    (hf : Ends y s (fun a t => RunsAs (f a) (g a) t) fun _ _ => True) :
    RunsAs (x >>= f) (y >>= g) s := by
  unfold RunsAs at hx ⊢
  unfold Ends at hf
  rw [run_bind, run_bind, hx]
  split at hf
  · exact hf
  · rfl

/-- Operations that begin with the same step. -/
theorem after (hf : Ends x s (fun a t => RunsAs (f a) (g a) t) fun _ _ => True) :
    RunsAs (x >>= f) (x >>= g) s := bind rfl hf

/-- Operations that go on with the same steps. -/
theorem before (hx : RunsAs x y s) : RunsAs (x >>= f) (y >>= f) s :=
  bind hx ((Ends.self y s).mono (fun _ _ _ => rfl) fun _ _ _ => trivial)

/-- Nothing is done after an error. -/
theorem throw_bind {e : ε} :
    RunsAs ((MonadExcept.throw e : ExceptT ε (StateM σ) α) >>= f) (MonadExcept.throw e >>= g) s := rfl

theorem tryCatch {handler : ε → ExceptT ε (StateM σ) α} (hx : RunsAs x y s) :
    RunsAs (tryCatch x handler) (tryCatch y handler) s := by
  unfold RunsAs at hx ⊢
  rw [run_tryCatch, run_tryCatch, hx]

/-- Loops that have the same rounds as long as an assertion is kept. -/
theorem forIn {xs : List α} {body body' : α → PUnit → ExceptT ε (StateM σ) (ForInStep PUnit)}
    (I : σ → Prop) (hs : I s)
    (hround : ∀ x ∈ xs, ∀ t, I t → RunsAs (body x ⟨⟩) (body' x ⟨⟩) t)
    (hkeep : ∀ x ∈ xs, ∀ t, I t →
      Ends (body' x ⟨⟩) t (fun step u => step = .yield ⟨⟩ ∧ I u) fun _ _ => True) :
    RunsAs (forIn xs PUnit.unit body) (ForIn.forIn xs PUnit.unit body') s := by
  induction xs generalizing s with
  | nil => rfl
  | cons x xs ih =>
    rw [List.forIn_cons, List.forIn_cons]
    refine bind (hround x List.mem_cons_self s hs) ?_
    refine (hkeep x List.mem_cons_self s hs).mono_ok ?_
    rintro _ t ⟨rfl, ht⟩
    exact ih ht (fun y hy => hround y (List.mem_cons_of_mem x hy))
      fun y hy => hkeep y (List.mem_cons_of_mem x hy)

end RunsAs

end Runs

/-! ## Operations with another removal -/

/-- A way of removing a contribution from a sum. -/
abbrev Removal := ObjectiveSum → Option Extended → ObjectiveSum

/-- Contributions are removed as usual, but where an infinite one is removed and none was counted,
anything may happen. -/
def Removal.Guarded (remove : Removal) : Prop :=
  ∀ s x, (x = none → 0 < s.nrInfinite) → remove s x = s.remove x

theorem Removal.Guarded.replace {remove : Removal} (hremove : remove.Guarded) {s : ObjectiveSum}
    {x y : Option Extended} (hs : x = none → 0 < s.nrInfinite) : (remove s x).add y = s.replace x y :=
  congrArg (ObjectiveSum.add · y) (hremove s x hs)

namespace Relaxation

open ConstraintMatrix (mem_columnRefs)

variable {σ : Type} [Solver σ] {lp : Relaxation σ} {c : ColumnRef} {a : Action}

section Removing

variable (remove : Removal)

/-- Change what a column says, with another removal. -/
def updateSpecBy (c : ColumnRef) (f : ColumnSpec → ColumnSpec) : RelaxationM σ Unit := do
  let column ← getColumn c
  let spec := f column.spec
  let before := column.spec.bestObjective?
  let after := spec.bestObjective?
  modifyMatrix (·.modifyColumn c ({ · with spec }))
  if before ≠ after then
    modify fun lp => { lp with pseudo := (remove lp.pseudo before).add after }
    if !column.isActive then
      modify fun lp => { lp with loose := (remove lp.loose before).add after }

/-- Append a column to the active linear program, with another removal. -/
def addColumnBy (c : ColumnRef) : RelaxationM σ Unit := do
  let column ← getColumn c
  if column.isActive then throw (.misuse (.columnActive c))
  onMatrix (ConstraintMatrix.setColumnActivePosition c (some (← get).columns.size))
  modify fun lp => { lp with
    columns := lp.columns.push c, loose := remove lp.loose column.spec.bestObjective? }
  desync
  loseDual
  markUnsolved

/-- Change the objective coefficient of a column, with another removal. -/
def changeObjectiveBy (c : ColumnRef) (objective : Extended) : RelaxationM σ Unit := do
  if objective.isInfinite then throw (.misuse (.objectiveInfinite c))
  let column ← getColumn c
  if column.spec.objective ≠ objective then
    updateSpecBy remove c ({ · with objective })
    queueColumn c
    if column.isActive then
      loseDual
      markUnsolved

/-- Change a bound of a column, with another removal. -/
def changeBoundBy (c : ColumnRef) (side : Side) (value : Extended) : RelaxationM σ Unit := do
  if !side.allows value then throw (.misuse (.boundNotAllowed side c value))
  let column ← getColumn c
  if column.spec.bounds.get side ≠ value then
    updateSpecBy remove c fun spec => { spec with bounds := spec.bounds.set side value }
    queueColumn c
    if column.isActive then
      losePrimal
      markUnsolved

/-- Undo a dive, with another removal. -/
def undoDiveBy (problem : Problem) (dive : Dive σ) : RelaxationM σ Unit := do
  for c in (← get).matrix.columnRefs do
    let spec := (problem.get (← getColumn c).origin).spec
    changeObjectiveBy remove c spec.objective
    changeBoundBy remove c .lower spec.bounds.lower
    changeBoundBy remove c .upper spec.bounds.upper
  for (r, side, value) in dive.sideLog.toList.reverse do
    if ((← get).matrix.row? r).isSome then changeSide r side value
  shrinkRows dive.nrRows
  sync
  onSolver (Solver.setInt .iterationLimit (iterationLimitCode dive.iterationLimit))

/-- End a dive, with another removal. -/
def endDiveBy (problem : Problem) : RelaxationM σ Unit := do
  match (← get).dive with
  | none => throw (.misuse .noDive)
  | some dive =>
    modify ({ · with dive := none })
    tryCatch (undoDiveBy remove problem dive) fun e => do
      modify ({ · with dive := some dive })
      throw e
    setIterationLimit dive.iterationLimit
    tryCatch (onSolver (Solver.restore dive.snapshot)) fun _ => pure ()
    if dive.stored then restoreSolution
    else
      markUnsolved
      modify ({ · with flags := { dive.flags with solved := false } })

/-- Do what an action says, with another removal. -/
def performBy : Action → RelaxationM σ Unit
  | .addColumn c => addColumnBy remove c
  | .changeObjective c objective => changeObjectiveBy remove c objective
  | .changeBound c side value => changeBoundBy remove c side value
  | .endDive problem => endDiveBy remove problem
  | a => perform a

end Removing

/-- With the removal that there is, the actions are what they are. -/
theorem performBy_remove (a : Action) :
    (performBy ObjectiveSum.remove a : RelaxationM σ Unit) = perform a := by
  cases a <;> rfl

/-! ## No action sees the difference -/

variable {remove : Removal}

/-- What a column contributes was counted in the pseudo objective. -/
theorem Aggregated.pseudo_counted (hlp : lp.Aggregated) (hc : lp.matrix.Has (.column c))
    (hnone : (lp.matrix.column c).spec.bestObjective? = none) : 0 < lp.pseudo.nrInfinite :=
  hlp.pseudo.nrInfinite_pos hc hnone

/-- What an inactive column contributes was counted in the loose objective, too. -/
theorem Summed.loose_counted (hlp : lp.Summed) (hc : lp.matrix.Has (.column c))
    (hinactive : (lp.matrix.column c).isActive = false)
    (hnone : (lp.matrix.column c).spec.bestObjective? = none) : 0 < lp.loose.nrInfinite := by
  have houtside : c ∉ lp.columns := fun hmem =>
    Bool.eq_false_iff.mp hinactive ((hlp.coherent.isActive_column_iff c).mpr hmem)
  exact hlp.sums.loose.nrInfinite_pos hc ((if_neg houtside).trans hnone)

theorem runsAs_updateSpecBy (hremove : remove.Guarded) (hlp : lp.Summed)
    (hc : lp.matrix.Has (.column c)) (f : ColumnSpec → ColumnSpec) :
    RunsAs (updateSpecBy remove c f) (updateSpec c f) lp := by
  refine .after (ends_getColumn.mpr ?_)
  refine .after (ends_modifyMatrix.mpr ?_)
  refine .ite (fun _ => ?_) fun _ => rfl
  refine .bind (.modify ?_) (Ends.modify_iff.mpr (.ite (fun hinactive => .modify ?_) fun _ => rfl))
  · rw [Removal.Guarded.replace hremove (hlp.sums.pseudo_counted hc)]
  · rw [Removal.Guarded.replace hremove (hlp.loose_counted hc (by simpa using hinactive))]

theorem runsAs_addColumnBy (hremove : remove.Guarded) (hlp : lp.Summed)
    (hc : lp.matrix.Has (.column c)) : RunsAs (addColumnBy remove c) (addColumn c) lp := by
  refine .after (ends_getColumn.mpr (.ite (fun _ => .throw_bind) fun hinactive => ?_))
  refine .after (Ends.get_iff.mpr (.after (ends_onMatrix.mpr ?_)))
  refine (Ends.self _ _).mono (fun _ m _ => .before (.modify ?_)) fun _ _ _ => trivial
  have hcounted := hlp.loose_counted hc (by simpa using hinactive)
  rw [hremove lp.loose _ hcounted]

theorem runsAs_changeObjectiveBy (hremove : remove.Guarded) (hlp : lp.Summed)
    (hc : lp.matrix.Has (.column c)) (objective : Extended) :
    RunsAs (changeObjectiveBy remove c objective) (changeObjective c objective) lp := by
  refine .ite (fun _ => .throw_bind) fun _ => .after (ends_getColumn.mpr ?_)
  exact .ite (fun _ => .before (runsAs_updateSpecBy hremove hlp hc _)) fun _ => rfl

theorem runsAs_changeBoundBy (hremove : remove.Guarded) (hlp : lp.Summed)
    (hc : lp.matrix.Has (.column c)) (side : Side) (value : Extended) :
    RunsAs (changeBoundBy remove c side value) (changeBound c side value) lp := by
  refine .ite (fun _ => .throw_bind) fun _ => .after (ends_getColumn.mpr ?_)
  exact .ite (fun _ => .before (runsAs_updateSpecBy hremove hlp hc _)) fun _ => rfl

/-- The columns are reset one after the other, and the sums are exact whenever one of them says
something else. -/
theorem runsAs_undoDiveBy (hremove : remove.Guarded) (hlp : lp.Summed) (problem : Problem)
    (dive : Dive σ) : RunsAs (undoDiveBy remove problem dive) (undoDive problem dive) lp := by
  refine .after (Ends.get_iff.mpr (.before ?_))
  have hhas {t : Relaxation σ} (ht : t.matrix.columns.size = lp.matrix.columns.size) {c : ColumnRef}
      (hc : c ∈ lp.matrix.columnRefs) : t.matrix.Has (.column c) := by
    rw [ConstraintMatrix.Has, ht]
    exact mem_columnRefs.mp hc
  refine .forIn (fun t => t.Summed ∧ t.matrix.columns.size = lp.matrix.columns.size) ⟨hlp, rfl⟩
    (fun c hc t ht => ?_) fun c hc t ht => ?_
  · refine .after (ends_getColumn.mpr ?_)
    refine .bind (runsAs_changeObjectiveBy hremove ht.1 (hhas ht.2 hc) _) ?_
    refine (ht.1.ends_changeObjective (hhas ht.2 hc) _).mono (fun _ t₁ h₁ => ?_) fun _ _ _ => trivial
    have hc₁ := hhas (h₁.2.trans ht.2) hc
    refine .bind (runsAs_changeBoundBy hremove h₁.1 hc₁ _ _) ?_
    refine (h₁.1.ends_changeBound hc₁ _ _).mono (fun _ t₂ h₂ => ?_) fun _ _ _ => trivial
    exact .before (runsAs_changeBoundBy hremove h₂.1 (hhas (h₂.2.trans (h₁.2.trans ht.2)) hc) _ _)
  · exact (ht.1.ends_reset (hhas ht.2 hc) problem).mono
      (fun _ u hu => ⟨hu.1, hu.2.1, hu.2.2.trans ht.2⟩) fun _ _ _ => trivial

theorem runsAs_endDiveBy (hremove : remove.Guarded) (hlp : lp.Summed) (problem : Problem) :
    RunsAs (endDiveBy remove problem) (endDive problem) lp := by
  refine .after (Ends.get_iff.mpr ?_)
  cases lp.dive with
  | none => rfl
  | some dive =>
    have hquiet : Quiet lp { lp with dive := none } := quiet_of_eq rfl rfl rfl rfl
    have hcolumns : SameColumns lp { lp with dive := none } := ⟨rfl, fun _ => rfl, rfl, rfl, rfl⟩
    have hsummed : Summed { lp with dive := none } :=
      ⟨(hquiet.carries hlp.coherent).coherent, hcolumns.aggregated hlp.sums⟩
    exact .after (.before (.tryCatch (runsAs_undoDiveBy hremove hsummed problem dive)))

/-- No action removes an infinite contribution from a sum in which none is counted. -/
theorem Summed.runsAs_performBy (hlp : lp.Summed) (ha : lp.Permits a) (hremove : remove.Guarded) :
    RunsAs (performBy remove a) (perform a) lp := by
  cases a with
  | addColumn c => exact runsAs_addColumnBy hremove hlp (ha c List.mem_cons_self)
  | changeObjective c objective =>
    exact runsAs_changeObjectiveBy hremove hlp (ha c List.mem_cons_self) objective
  | changeBound c side value =>
    exact runsAs_changeBoundBy hremove hlp (ha c List.mem_cons_self) side value
  | endDive problem => exact runsAs_endDiveBy hremove hlp problem
  | _ => rfl

end Relaxation

end CertifiedLp
