import Mathlib
import CertifiedLp.Proofs.Relaxation.Aggregates
import CertifiedLp.Proofs.Relaxation.Posing

/-!
# What can be certified

What columns and rows say is checked when they are created and whenever it is changed, and infinite
coefficients are refused. So the numbers of every relaxation that was created and worked with are those
of a linear program. If moreover the solver was told everything, and both lists have every coefficient
between active lines, then the answers of the solver can be certified.
-/

namespace CertifiedLp

namespace ConstraintMatrix

variable {m : ConstraintMatrix}

/-- What lines say is sensible, and what is stored is rational. -/
theorem Sound.proper (hm : m.Sound)
    (hcolumns : ∀ c, m.Has (.column c) → (m.column c).spec.Sensible)
    (hrows : ∀ r row, m.row? r = some row → row.spec.Sensible) : m.Proper := by
  have hfinite {x : Extended} (hx : x.isInfinite = false) : x.isFinite = true := by
    rw [Extended.isInfinite, Bool.not_eq_false'] at hx
    exact hx
  refine proper_iff.mpr ⟨fun c hc => ?_, fun r _ row hrow => ?_⟩
  · have hspec := hcolumns c (mem_columnRefs.mp hc)
    refine ⟨hfinite hspec.objective, hspec.bounds, fun e he => ?_⟩
    obtain ⟨i, hi⟩ := Array.mem_iff_getElem?.mp he
    exact (hm.tidy.value_of_cell (cell_of_column hi)).1
  · have hspec := hrows r row hrow
    refine ⟨hfinite hspec.constant, hspec.sides, fun e he => ?_⟩
    obtain ⟨i, hi⟩ := Array.mem_iff_getElem?.mp he
    exact (hm.tidy.value_of_cell (cell_of_row hrow hi)).1

end ConstraintMatrix

namespace Relaxation

variable {σ : Type} [Solver σ] {S : σ → σ → Prop} {scope : Scope} {lp t : Relaxation σ} {a : Action}
variable {solver : σ} {settings : Settings} {actions : List Action}

/-- What the rows say is sensible. -/
def SensibleRows (lp : Relaxation σ) : Prop :=
  ∀ r row, lp.matrix.row? r = some row → row.spec.Sensible

/-! ## Steps -/

/-- Every row says what it, or another one, said before. -/
theorem SensibleRows.of_rows (h : lp.SensibleRows) (hrows : ∀ {r row'}, t.matrix.row? r = some row' →
    ∃ row, lp.matrix.row? r = some row ∧ row'.spec = row.spec) : t.SensibleRows := by
  intro r row' hrow'
  obtain ⟨row, hrow, hspec⟩ := hrows hrow'
  rw [hspec]
  exact h r row hrow

theorem Steady.sensibleRows (hsteady : Steady S scope lp t) : Preserves SensibleRows lp t := by
  intro h
  refine h.of_rows fun hrow' => ?_
  obtain ⟨row, hrow, htold, -⟩ := hsteady.matrix.row hrow'
  exact ⟨row, hrow, congrArg (·.1) htold⟩

theorem RowsSteady.sensibleRows (hsteady : RowsSteady S scope lp t) :
    Preserves SensibleRows lp t := by
  obtain ⟨rows, hsteady⟩ := hsteady
  exact hsteady.sensibleRows

theorem Informed.sensibleRows (hinformed : Informed S lp t) : Preserves SensibleRows lp t := by
  intro h
  refine h.of_rows fun {r row'} hrow' => ?_
  have hsame := hinformed.matrix.row?_eq r
  rw [hrow', Option.map_some] at hsame
  obtain ⟨row, hrow, heq⟩ := Option.map_eq_some_iff.mp hsame.symm
  exact ⟨row, hrow, (Forgetting.row_congr Row.spec heq fun _ => rfl).symm⟩

/-- What is changed is checked, so solves and dives leave rows sensible. -/
theorem bears_sensibleRows :
    Bears (Preserves SensibleRows : Relaxation σ → Relaxation σ → Prop) where
  respecified hspec h := by
    obtain ⟨b, hmatrix⟩ := hspec.matrix
    refine h.of_rows fun {r row'} hrow' => ⟨row', ?_, rfl⟩
    rw [hmatrix] at hrow'
    exact hrow'
  rowRespecified {r row spec lp t} hrow hspec h := by
    obtain ⟨f, b, hmatrix, hf⟩ := hspec.matrix
    intro s row' hrow'
    have hchanged : (lp.matrix.modifyRow r f).row? s = some row' := by
      rw [hmatrix] at hrow'
      exact hrow'
    rw [ConstraintMatrix.row?_modifyRow] at hchanged
    split at hchanged
    · next heq =>
      subst heq
      rw [hrow, Option.map_some, Option.some_inj] at hchanged
      rw [← hchanged, hf.spec]
      exact hspec.sensible (h r row hrow)
    · exact h s row' hchanged
  unedited hunedited := by
    have hsteady : Steady Resized (.edits ∅) _ _ := hunedited.steady
    exact hsteady.sensibleRows
  dive _ _ h := h
  iterationLimit _ _ h := h
  sync := (informed_sync updates_whatever).mono fun _ _ => Informed.sensibleRows
  shrinkRows size := by
    have hsteady : Along (RowsSteady Whatever ⟨Set.univ, True⟩)
        (shrinkRows size : RelaxationM σ Unit) := rowsSteady_shrinkRows True size
    exact hsteady.mono fun _ _ => RowsSteady.sensibleRows

theorem ends_createRow_sensibleRows (h : lp.SensibleRows) (name : String) (spec : RowSpec) :
    Ends (createRow name spec) lp (fun _ t => t.SensibleRows) fun _ t => t.SensibleRows := by
  rw [ends_createRow_iff]
  refine ⟨fun _ => h, fun haccepted r row hrow => ?_⟩
  have hvalid : spec.sides.isValid = true ∧ spec.constant.isInfinite = false := by
    simpa [Extended.isInfinite] using haccepted
  rw [ConstraintMatrix.row?, ConstraintMatrix.pushRow, Array.getElem?_push] at hrow
  split at hrow
  · rw [← Option.some.inj hrow]
    exact ⟨hvalid.2, Interval.allows_of_isValid hvalid.1⟩
  · exact h r row hrow

/-! ## Runs -/

theorem sensibleRows_setSettings (settings : Settings) :
    Along (Preserves SensibleRows) (setSettings settings : RelaxationM σ Unit) := by
  have hcall (x : SolverM σ Unit) : Along (Preserves SensibleRows) (onSolver x) :=
    (informed_onSolver (S := Whatever) along_whatever).mono fun _ _ => Informed.sensibleRows
  refine .bind (hcall _) fun _ => .bind (hcall _) fun _ => ?_
  exact .modify fun _ h => h

/-- Every action leaves rows sensible, whether it succeeds or not. -/
theorem SensibleRows.perform (h : lp.SensibleRows) (hlp : lp.Coherent) (ha : lp.Permits a) :
    (lp.after (perform a)).SensibleRows := by
  have hlong {x : RelaxationM σ Unit} (hx : Along (Preserves SensibleRows) x) :
      (lp.after x).SensibleRows := hx.state lp h
  have hsteady (scope : Scope) {x : RelaxationM σ Unit} (hx : Along (Steady Whatever scope) x) :
      (lp.after x).SensibleRows := (hx.state lp).sensibleRows h
  have hrows {x : RelaxationM σ Unit} (hx : Along (RowsSteady Whatever ⟨Set.univ, True⟩) x) :
      (lp.after x).SensibleRows := (hx.state lp).sensibleRows h
  have hunedited {x : RelaxationM σ Unit} (hx : Along (Unedited Whatever) x) :
      (lp.after x).SensibleRows := hsteady (.edits ∅) (steady_of_unedited hx)
  have hshrink (size : Nat) : Ends (shrinkColumns size) lp (fun _ t => t.SensibleRows)
      fun _ t => t.SensibleRows := by
    refine ((ends_shrinkColumns hlp size).and
      (ends_shrinkColumns_steady (S := Whatever) (.edits ∅) size)).mono (fun _ _ ht => ?_)
        fun _ _ ht => ht.1.elim
    exact ht.2.sensibleRows h
  cases a with
  | setSettings settings => exact hlong (sensibleRows_setSettings settings)
  | setCutoff cutoff => exact hunedited (unedited_setCutoff cutoff)
  | createColumn problem x =>
    have hcreate : Ends (createColumn problem x) lp (fun _ t => t.SensibleRows)
        fun _ t => t.SensibleRows := by
      rw [ends_createColumn_iff]
      exact ⟨fun _ => h, fun _ => ⟨fun _ => h, fun _ => h⟩⟩
    exact Ends.state (Ends.bind_iff.mpr hcreate)
  | createRow name spec =>
    exact Ends.state (Ends.bind_iff.mpr (ends_createRow_sensibleRows h name spec))
  | captureRow r => exact hsteady (.edits ∅) (steady_captureRow r)
  | releaseRow r => exact hsteady (.edits Set.univ) (steady_releaseRow (Set.mem_univ r))
  | lockRow r => exact hsteady (.edits ∅) (steady_lockRow r)
  | unlockRow r => exact hsteady (.edits ∅) (steady_unlockRow r)
  | addColumn c =>
    refine (((ends_addColumn hlp (ha c List.mem_cons_self)).and
      (ends_addColumn_steady (S := Whatever) (.edits ∅) c)).mono ?_ ?_).state
    · rintro _ t ⟨-, -, hsteady⟩
      exact hsteady.sensibleRows h
    · rintro _ t ⟨rfl, -⟩
      exact h
  | addRow r =>
    exact ((ends_addRow_steady (S := Whatever) (.edits ∅) r).mono
      (fun _ _ ht => ht.sensibleRows h) fun _ _ ht => ht.sensibleRows h).state
  | shrinkColumns size => exact (hshrink size).state
  | shrinkRows size => exact hrows (rowsSteady_shrinkRows True size)
  | deleteRows mask => exact hrows (rowsSteady_deleteRows True mask)
  | clear =>
    refine Ends.state (Ends.bind_iff.mpr ((hshrink 0).mono_ok fun _ t ht => ?_))
    exact (bears_sensibleRows.shrinkRows 0 t).mono (fun _ _ hu => hu ht) fun _ _ hu => hu ht
  | changeObjective c objective => exact hlong (bears_sensibleRows.changeObjective c objective)
  | changeBound c side value => exact hlong (bears_sensibleRows.changeBound c side value)
  | changeSide r side value => exact hlong (bears_sensibleRows.changeSide r side value)
  | changeConstant r constant => exact hlong (bears_sensibleRows.changeConstant r constant)
  | coefficient c r => exact hsteady (.edits ∅) (along_forgetful (steady_coefficient c r))
  | edit c r e => exact hsteady (.edits ∅) (steady_edit c r e)
  | addCoefficientsInRow r coefficients =>
    exact hsteady (.edits ∅) (steady_addCoefficientsInRow r coefficients)
  | delayOrder r => exact hsteady (.edits ∅) (steady_delayOrder r)
  | forceOrder r => exact hsteady (.edits ∅) (steady_forceOrder r)
  | sync => exact hlong bears_sensibleRows.sync
  | solve a => exact hlong (along_forgetful (bears_sensibleRows.solve a))
  | solveAnd write a => exact hlong (along_forgetful (bears_sensibleRows.solveAnd write a))
  | storeSolution => exact hunedited unedited_storeSolution
  | restoreSolution => exact hunedited unedited_restoreSolution
  | rowActivity r => exact hunedited (along_forgetful (unedited_rowActivity r))
  | rowFeasibility r => exact hunedited (along_forgetful (unedited_rowFeasibility r))
  | startDive store => exact hlong (bears_sensibleRows.startDive store)
  | setIterationLimit limit => exact hlong (.modify fun _ h => h)
  | endDive problem => exact hlong (bears_sensibleRows.endDive problem)

theorem sensibleRows_performAll (hcreate : create solver settings = .ok lp)
    (hactions : Throughout Permits lp actions) : (lp.performAll actions).SensibleRows := by
  have hblank : (blank solver).SensibleRows := fun r row hrow => by
    cases (ConstraintMatrix.row?_empty r).symm.trans hrow
  obtain ⟨-, hrun⟩ := of_create hcreate
  have hnew : lp.SensibleRows := (sensibleRows_setSettings settings _).of_ok hrun hblank
  exact (performAll_keeps (I := fun lp => lp.Coherent ∧ lp.SensibleRows)
    (fun h ha => ⟨h.1.perform ha, h.2.perform h.1 ha⟩) ⟨(records_create hcreate).coherent, hnew⟩
    hactions).2

/-- The numbers of every relaxation that was created and worked with are those of a linear program. -/
theorem performAll_proper (hcreate : create solver settings = .ok lp)
    (hactions : Throughout Permits lp actions) : (lp.performAll actions).matrix.Proper := by
  have hsummed := (summed_create hcreate).performAll hactions
  exact hsummed.coherent.sound.proper hsummed.sums.sensible (sensibleRows_performAll hcreate hactions)

/-- Whatever was done to a relaxation, when the solver was told everything, and every coefficient
between active lines is linked, the answers of the solver can be certified. -/
theorem performAll_certifiable (hcreate : create solver settings = .ok lp)
    (hactions : Throughout Permits lp actions)
    (hsynced : (lp.performAll actions).matrix.synced = true)
    (hlinked : (lp.performAll actions).AllLinked) : (lp.performAll actions).Certifiable :=
  ((tracked_create hcreate).performAll hactions).certifiable hsynced
    (performAll_proper hcreate hactions) hlinked

end Relaxation

end CertifiedLp
