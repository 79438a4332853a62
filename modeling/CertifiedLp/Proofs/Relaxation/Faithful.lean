import Mathlib
import CertifiedLp.Proofs.Relaxation.Handing
import CertifiedLp.Proofs.Relaxation.Matching
import CertifiedLp.Proofs.Relaxation.Retrying

/-!
# Every operation is faithful

Edits and moves do not call the solver. They are *silent*: of the lines that the solver has they
keep what was sent, and they remove no mark. So the solver still holds what it was told, as long as
an edit marks a line of the coefficient that it changes. All other operations bring the solver up to
date, and configure and run it. In every relaxation that was created and worked with, the solver
holds what it was told, unless it refused a value.
-/

namespace CertifiedLp

namespace Relaxation

open ConstraintMatrix (Retells Undisturbed)
open Simplex (SameContents along_sameContents_setInt respects_sameContents)

variable {lp t u : Relaxation Simplex} {c : ColumnRef} {r : RowRef} {row : Row} {a : Action}
variable {α β : Type} {gone : Set RowRef} {actions : List Action} {solver : Simplex}
variable {settings : Settings}

/-! ## Edits and moves -/

/-- The solver still holds what it was told, where a silent operation marked a line of each
coefficient that it changed. -/
theorem Faithful.of_silent (h : lp.Faithful) (ht : t.Tracked) (hsilent : Silent SameContents True lp t)
    (hlinked : ∀ {c r row}, t.matrix.row? r = some row →
      (t.matrix.column c).solverPosition.isSome = true → row.solverPosition.isSome = true →
      (t.matrix.column c).coefficientChanged = false → row.coefficientChanged = false →
      t.matrix.linked c r = lp.matrix.linked c r) : t.Faithful := by
  have hcolumn {c : ColumnRef} (hc : c ∈ t.matrix.solverColumns) :
      (t.matrix.column c).solverPosition.isSome = true := by
    obtain ⟨i, hi⟩ := Array.mem_iff_getElem?.mp hc
    rw [(ht.coherent.solverPosition_column c i).mpr hi, Option.isSome_some]
  have hrow {r : RowRef} {row : Row} (hr : r ∈ t.matrix.solverRows)
      (hrow : t.matrix.row? r = some row) : row.solverPosition.isSome = true := by
    obtain ⟨j, hj⟩ := Array.mem_iff_getElem?.mp hr
    rw [(ht.coherent.solverPosition_row hrow j).mpr hj, Option.isSome_some]
  have hunmarked {p q : Bool} (hmark : p = true → q = true) (hq : q = false) : p = false :=
    Bool.eq_false_iff.mpr fun hp => nomatch hq.symm.trans (hmark hp)
  have hretells : Retells lp.matrix t.matrix := by
    refine ⟨fun hc => ?_, fun hr hrow' => ?_, fun hc hr hrow' hcolumnMark hrowMark =>
      hlinked hrow' (hcolumn hc) (hrow hr hrow') hcolumnMark hrowMark⟩
    · obtain ⟨-, hsent, hmark⟩ := hsilent.matrix.column (hcolumn hc)
      exact ⟨hsent, hunmarked hmark⟩
    · obtain ⟨row, hold, -, hsent, hmark⟩ := hsilent.matrix.row hrow' (hrow hr hrow')
      exact ⟨row, hold, hsent, hunmarked hmark⟩
  exact ⟨ht, h.conveyed.retell hretells hsilent.solver
    hsilent.matrix.solverColumns hsilent.matrix.solverRows⟩

/-- A silent operation that disturbs no coefficients. -/
theorem Faithful.of_carried (h : lp.Faithful) (ht : t.Tracked) (hsilent : Silent SameContents True lp t)
    (hcarried : Carried Undisturbed lp t) : t.Faithful :=
  h.of_silent ht hsilent fun hrow _ _ _ _ => hcarried.matrix.linked (by rw [hrow]; rfl)

theorem Faithful.of_steady (h : lp.Faithful) (hsteady : Steady SameContents (.edits gone) lp t)
    (hcarried : Carried Undisturbed lp t) : t.Faithful :=
  h.of_carried ⟨hcarried.coherent, hsteady.aware h.tracked.aware⟩ hsteady.rowsSteady.silent hcarried

/-- An edit marks a line of the coefficient that it changes. -/
theorem Faithful.ends_edit (h : lp.Faithful) (hc : lp.matrix.Has (.column c)) (r : RowRef)
    (e : Edit) :
    Ends (edit c r e) lp (fun _ t => Unmoved lp t ∧ t.Faithful)
      fun _ t => Unmoved lp t ∧ t.Faithful := by
  cases hrow : lp.matrix.row? r with
  | none =>
    refine (ends_edit_missing hrow c e).mono (fun _ _ h => h.elim) ?_
    rintro _ _ rfl
    exact ⟨refl _, h⟩
  | some row =>
    have hfaithful {accepted : Bool} {t : Relaxation Simplex}
        (hedited : Edited lp t row c r e accepted) (hsteady : Steady SameContents (.edits ∅) lp t) :
        Unmoved lp t ∧ t.Faithful := by
      refine ⟨hedited.unmoved, h.of_silent ⟨hedited.coherent h.tracked.coherent,
        hsteady.aware h.tracked.aware⟩ hsteady.rowsSteady.silent
        fun {d s row'} hrow' hcolumn hposition hcolumnMark hrowMark => ?_⟩
      by_cases hds : d = c ∧ s = r
      · obtain ⟨rfl, rfl⟩ := hds
        rcases hedited.matrix.announced with hannounced | hlinked
        · exact nomatch hrowMark.symm.trans
            (hannounced.marked hrow' hcolumn hposition hcolumnMark)
        · exact hlinked
      · exact (hedited.matrix.spares d s hds).2
    exact ((h.tracked.coherent.ends_edit hc hrow e).and (steady_edit c r e lp)).mono
      (fun _ _ ht => hfaithful ht.1 ht.2) fun _ _ ht => hfaithful ht.1 ht.2

theorem Faithful.ends_delayOrder (h : lp.Faithful) (r : RowRef) :
    Ends (delayOrder r) lp (fun _ t => Unmoved lp t ∧ t.Faithful)
      fun _ t => Unmoved lp t ∧ t.Faithful :=
  have hsteady : Along (Steady SameContents (.edits ∅)) (delayOrder r) := steady_delayOrder r
  ((h.tracked.coherent.ends_delayOrder r).and (hsteady lp)).mono
    (fun _ _ ht => ⟨ht.1.1, h.of_steady ht.2 ht.1.2⟩) fun _ _ ht => ⟨ht.1.1, h.of_steady ht.2 ht.1.2⟩

theorem Faithful.ends_forceOrder (h : lp.Faithful) (r : RowRef) :
    Ends (forceOrder r) lp (fun _ t => Unmoved lp t ∧ t.Faithful)
      fun _ t => Unmoved lp t ∧ t.Faithful :=
  have hsteady : Along (Steady SameContents (.edits ∅)) (forceOrder r) := steady_forceOrder r
  ((h.tracked.coherent.ends_forceOrder r).and (hsteady lp)).mono
    (fun _ _ ht => ⟨ht.1.1, h.of_steady ht.2 ht.1.2⟩) fun _ _ ht => ⟨ht.1.1, h.of_steady ht.2 ht.1.2⟩

/-- Values are given to a row one after the other. -/
theorem Faithful.ends_addCoefficientsInRow (h : lp.Faithful) (r : RowRef)
    {coefficients : List (ColumnRef × Extended)}
    (hc : ∀ x ∈ coefficients, lp.matrix.Has (.column x.1)) :
    Ends (addCoefficientsInRow r coefficients) lp (fun _ t => t.Faithful) fun _ t => t.Faithful := by
  have hall {t : Relaxation Simplex} (ht : Unmoved lp t ∧ t.Faithful) :
      Ends (forIn coefficients PUnit.unit fun x _ => do
          addCoefficientInRow r x.1 x.2
          pure (ForInStep.yield PUnit.unit) : RelaxationM Simplex PUnit) t
        (fun _ u => Unmoved lp u ∧ u.Faithful) fun _ u => u.Faithful := by
    refine Ends.forIn_keeps (fun u => Unmoved lp u ∧ u.Faithful) ht fun x hx u hu => ?_
    rw [Ends.bind_iff]
    exact (hu.2.ends_edit (hu.1.has_column (hc x hx)) r (.addInRow x.2)).mono
      (fun _ _ hv => ⟨rfl, IsTrans.trans _ _ _ hu.1 hv.1, hv.2⟩) fun _ _ hv => hv.2
  rw [addCoefficientsInRow, Ends.bind_iff, ends_getRow_iff]
  refine ⟨fun row _ => ?_, fun _ => h⟩
  rw [Ends.ite_iff]
  refine ⟨fun htogether => ?_, fun hseparate => ?_⟩
  · rw [Ends.bind_iff]
    refine (h.ends_delayOrder r).mono (fun _ t ht => ?_) fun _ _ ht => ht.2
    rw [Ends.bind_iff]
    refine (hall ht).mono_ok fun _ u hu => ?_
    rw [if_pos htogether]
    exact (hu.2.ends_forceOrder r).mono (fun _ _ hv => hv.2) fun _ _ hv => hv.2
  · rw [Ends.bind_iff]
    refine (hall ⟨refl lp, h⟩).mono_ok fun _ u hu => ?_
    rw [if_neg hseparate]
    exact hu.2

/-- After an action that does not bring the solver up to date, the solver holds what it was told. -/
theorem Faithful.perform_silent (h : lp.Faithful) (ha : lp.Permits a) (hsync : a.isSync = false) :
    (lp.after (perform a)).Faithful := by
  have htracked := h.tracked.perform ha
  have hsilent := (h.tracked.coherent.ends_silent ha hsync (fun _ => trivial)
    fun _ _ _ => along_sameContents_setInt _ _).state
  cases a with
  | createRow name spec =>
    refine h.of_silent htracked hsilent fun _ _ _ _ _ => ?_
    have hcreate : Ends (createRow name spec) lp (fun _ t => t.matrix.linked = lp.matrix.linked)
        fun _ t => t.matrix.linked = lp.matrix.linked :=
      (ends_createRow h.tracked.coherent name spec).mono (fun _ _ ht => ht.2.2)
        fun _ _ ht => by rw [ht]
    have hlinked := Ends.state (I := fun t : Relaxation Simplex => t.matrix.linked = lp.matrix.linked)
      (x := perform (.createRow name spec)) (Ends.bind_iff.mpr hcreate)
    exact congrFun (congrFun hlinked _) _
  | edit c r e =>
    exact ((h.ends_edit (ha c List.mem_cons_self) r e).mono (fun _ _ ht => ht.2)
      fun _ _ ht => ht.2).state
  | addCoefficientsInRow r coefficients =>
    exact (h.ends_addCoefficientsInRow r fun x hx => ha x.1 (List.mem_map_of_mem hx)).state
  | _ =>
    exact h.of_carried htracked hsilent
      (h.tracked.coherent.ends_undisturbed ha rfl hsync (by simp)).state

/-! ## Operations that bring the solver up to date -/

theorem Unedited.faithful (h : Unedited SameContents lp t) (hlp : lp.Faithful) : t.Faithful := by
  have hresized : Unedited Resized lp t :=
    { h with solver := fun _ => ⟨h.solver.nrColumns, h.solver.nrRows⟩ }
  have hsteady : Steady SameContents (.edits ∅) lp t := h.steady
  exact hlp.of_steady hsteady (hresized.quiet.carries hlp.tracked.coherent)

theorem faithful_of_unedited {x : RelaxationM Simplex α} (h : Along (Unedited SameContents) x) :
    Along (Preserves Faithful) x := h.mono fun _ _ => Unedited.faithful

theorem faithful_of_carries {x : RelaxationM Simplex α} (hcarries : Along (Carries Undisturbed) x)
    (hsilent : Along (Silent SameContents True) x) (htracks : Along Tracks x) :
    Along (Preserves Faithful) x := fun lp => by
  refine (((hcarries lp).and (hsilent lp)).and (htracks lp)).mono ?_ ?_
  · intro _ t ht h
    exact h.of_carried (ht.2 h.tracked) ht.1.2 (ht.1.1 h.tracked.coherent)
  · intro _ t ht h
    exact h.of_carried (ht.2 h.tracked) ht.1.2 (ht.1.1 h.tracked.coherent)

/-- What concerns neither the lines nor the lists, the queues and the solver. -/
theorem faithful_modify {f : Relaxation Simplex → Relaxation Simplex}
    (h : ∀ lp, (f lp).matrix = lp.matrix ∧ (f lp).solver = lp.solver ∧ (f lp).columns = lp.columns ∧
      (f lp).rows = lp.rows ∧ (f lp).changedColumns = lp.changedColumns ∧
      (f lp).changedRows = lp.changedRows) :
    Along (Preserves Faithful) (modify f : RelaxationM Simplex PUnit) :=
  faithful_of_carries (along_of_quiet (.modify fun lp =>
    quiet_of_eq (h lp).1 (h lp).2.1 (h lp).2.2.1 (h lp).2.2.2.1))
    (silent_modify fun lp => ⟨(h lp).1, (h lp).2.1⟩) (tracks_modify h)

/-- The solver knows nothing of dives. -/
theorem Faithful.withDive (h : lp.Faithful) (dive : Option (Dive Simplex)) :
    Faithful { lp with dive } :=
  faithful_modify (f := ({ · with dive })) (fun _ => ⟨rfl, rfl, rfl, rfl, rfl, rfl⟩) lp h

/-- Afterwards the solver holds what it was told, unless it refused a value. -/
def Honest (x : RelaxationM Simplex α) : Prop :=
  ∀ lp : Relaxation Simplex, lp.Faithful →
    Ends x lp (fun _ t => t.Faithful) fun e t => e.isRejection = true ∨ t.Faithful

namespace Honest

variable {x : RelaxationM Simplex α} {f : α → RelaxationM Simplex β}

theorem of_along (h : Along (Preserves Faithful) x) : Honest x := fun lp hlp =>
  (h lp).mono (fun _ _ ht => ht hlp) fun _ _ ht => .inr (ht hlp)

theorem bind (hx : Honest x) (hf : ∀ a, Honest (f a)) : Honest (x >>= f) := fun lp hlp =>
  Ends.bind_iff.mpr ((hx lp hlp).mono_ok fun a t ht => hf a t ht)

theorem get {f : Relaxation Simplex → RelaxationM Simplex β} (h : ∀ lp, Honest (f lp)) :
    Honest (MonadState.get >>= f) := fun lp hlp => Ends.bind_iff.mpr (h lp lp hlp)

theorem ite {p : Prop} [Decidable p] {y : RelaxationM Simplex α} (hx : Honest x) (hy : Honest y) :
    Honest (if p then x else y) := by
  split
  · exact hx
  · exact hy

end Honest

theorem honest_sync : Honest sync := fun _ hlp => hlp.ends_sync.mono_ok fun _ _ ht => ht.1

theorem honest_solveAnd (write : Bool) (a : Approximation) : Honest (solveAnd write a) := by
  rw [solveAnd_eq]
  exact honest_sync.bind fun _ =>
    .of_along (faithful_of_unedited (unedited_solveSynced respects_sameContents write a))

theorem honest_solve (a : Approximation) : Honest (solve a) := .get fun _ => honest_solveAnd _ a

theorem honest_startDive (store : Bool) : Honest (startDive store) := by
  have hrest (snapshot : Basis) (flags : Flags) (stored : Bool) :
      Honest (modify fun lp : Relaxation Simplex => { lp with dive := some {
        snapshot, flags, stored
        nrRows := lp.rows.size, iterationLimit := lp.settings.iterationLimit, sideLog := #[] } } :
          RelaxationM Simplex Unit) :=
    .of_along (faithful_modify fun _ => ⟨rfl, rfl, rfl, rfl, rfl, rfl⟩)
  refine .get fun lp => .ite (.of_along .throw_bind) (honest_sync.bind fun _ => ?_)
  refine .bind (.of_along (along_askSolver _)) fun snapshot =>
    .get fun lp' => .ite ?_ (hrest _ _ _)
  exact .bind (.of_along (faithful_of_unedited unedited_storeSolution)) fun _ => hrest _ _ _

theorem admitsChanges_faithful : AdmitsChanges (Preserves (Faithful : Relaxation Simplex → Prop)) where
  respecified h hlp := by
    have htracked : Tracks _ _ := admitsChanges_tracks.respecified h
    have hcarried := h.quiet.carries hlp.tracked.coherent
    exact hlp.of_carried (htracked hlp.tracked) (admitsChanges_silent.respecified h) hcarried
  rowRespecified hrow h hlp := by
    have htracked : Tracks _ _ := admitsChanges_tracks.rowRespecified hrow h
    have hcarried := h.quiet.carries hlp.tracked.coherent
    exact hlp.of_carried (htracked hlp.tracked) (admitsChanges_silent.rowRespecified hrow h) hcarried

theorem faithful_shrinkRows (size : Nat) :
    Along (Preserves Faithful) (shrinkRows size : RelaxationM Simplex Unit) :=
  faithful_of_carries (along_shrinkRows size)
    ((rowsSteady_shrinkRows True size).mono fun _ _ => RowsSteady.silent) (tracks_shrinkRows size)

theorem faithful_undoEdits (problem : Problem) (dive : Dive Simplex) :
    Along (Preserves Faithful) (undoEdits problem dive) :=
  admitsChanges_faithful.undoEdits faithful_shrinkRows problem dive

theorem honest_undoDive (problem : Problem) (dive : Dive Simplex) :
    Honest (undoDive problem dive) := by
  rw [undoDive_eq]
  exact .bind (.of_along (faithful_undoEdits problem dive)) fun _ => honest_sync.bind fun _ =>
    .of_along (faithful_of_unedited (unedited_onSolver (along_sameContents_setInt _ _)))

/-- What is done after a dive was undone. -/
theorem faithful_closeDive (dive : Dive Simplex) : Along (Preserves Faithful) (closeDive dive) := by
  refine .bind (faithful_modify fun _ => ⟨rfl, rfl, rfl, rfl, rfl, rfl⟩) fun _ => ?_
  refine .bind (faithful_of_unedited (.tryCatch
    (unedited_onSolver (respects_sameContents.restore _)) fun _ => .pure)) fun _ => ?_
  refine .ite (faithful_of_unedited unedited_restoreSolution) ?_
  exact .bind (faithful_of_unedited unedited_markUnsolved) fun _ =>
    faithful_modify fun _ => ⟨rfl, rfl, rfl, rfl, rfl, rfl⟩

theorem honest_endDive (problem : Problem) : Honest (endDive problem) := fun lp hlp => by
  cases hdive : lp.dive with
  | none =>
    rw [endDive, Ends.bind_iff, Ends.get_iff, hdive]
    exact .inr hlp
  | some dive =>
    rw [ends_endDive_iff hdive]
    refine (honest_undoDive problem dive _ (hlp.withDive none)).mono (fun _ t ht => ?_)
      fun e t ht => ht.imp id (·.withDive (some dive))
    exact Honest.of_along (faithful_closeDive dive) t ht

/-! ## Runs -/

/-- The solver refuses no value. -/
def Unrejected (lp : Relaxation Simplex) (a : Action) : Prop :=
  ∀ e, ((perform a).run.run lp).1 = .error e → e.isRejection = false

instance (lp : Relaxation Simplex) (a : Action) : Decidable (lp.Unrejected a) :=
  match h : ((perform a).run.run lp).1 with
  | .ok _ => .isTrue fun _ he => nomatch h.symm.trans he
  | .error e => decidable_of_iff (e.isRejection = false)
    ⟨fun he _ he' => Except.error.inj (h.symm.trans he') ▸ he, fun hall => hall e h⟩

theorem Honest.state {x : RelaxationM Simplex Unit} (hx : Honest x) (h : lp.Faithful)
    (hunrejected : ∀ e, (x.run.run lp).1 = .error e → e.isRejection = false) :
    (lp.after x).Faithful := by
  refine Ends.state (I := Faithful) (((Ends.self x lp).and (hx lp h)).mono (fun _ _ ht => ht.2) ?_)
  rintro e t ⟨hrun, hrejected | ht⟩
  · exact nomatch (hunrejected e (congrArg Prod.fst hrun)).symm.trans hrejected
  · exact ht

/-- After any action, the solver holds what it was told, unless it refused a value. -/
theorem Faithful.perform (h : lp.Faithful) (ha : lp.Permits a) (hunrejected : lp.Unrejected a) :
    (lp.after (perform a)).Faithful := by
  cases hsync : a.isSync with
  | false => exact h.perform_silent ha hsync
  | true =>
    refine Honest.state ?_ h hunrejected
    cases a with
    | sync => exact honest_sync
    | solve a => exact (honest_solve a).bind fun _ => .of_along .pure
    | solveAnd write a => exact (honest_solveAnd write a).bind fun _ => .of_along .pure
    | startDive store => exact honest_startDive store
    | endDive problem => exact honest_endDive problem
    | _ => cases hsync

theorem Faithful.performAll (h : lp.Faithful) (hactions : Throughout Permits lp actions)
    (hunrejected : Throughout Unrejected lp actions) : (lp.performAll actions).Faithful := by
  induction actions generalizing lp with
  | nil => exact h
  | cons a rest ih => exact ih (h.perform hactions.1 hunrejected.1) hactions.2 hunrejected.2

/-- A solver without lines was told nothing. -/
theorem faithful_blank (hcolumns : solver.nrColumns = 0) (hrows : solver.nrRows = 0) :
    (blank solver).Faithful := by
  have hnone {r : RowRef} {row : Row} : (blank solver).matrix.row? r ≠ some row := fun hrow =>
    nomatch (ConstraintMatrix.row?_empty r).symm.trans hrow
  refine ⟨⟨coherent_blank hcolumns hrows, aware_blank solver⟩, ?_⟩
  refine ⟨fun j row hrow => ?_, hcolumns, hrows, fun hi => ?_, fun hi => ?_, fun hj => ?_, fun hi => ?_⟩
  · rw [Simplex.getElem?_rows_eq_none (hrows ▸ Nat.zero_le j)] at hrow
    cases hrow
  · cases hi
  · cases hi
  · cases hj
  · cases hi

theorem faithful_create (hcreate : create solver settings = .ok lp) : lp.Faithful := by
  obtain ⟨⟨hcolumns, hrows⟩, hrun⟩ := of_create hcreate
  have hset : Along (Preserves Faithful) (setSettings settings : RelaxationM Simplex Unit) :=
    faithful_of_carries (along_of_quiet (quiet_setSettings settings))
      (silent_setSettings (fun _ _ => along_sameContents_setInt _ _) settings)
      (tracks_setSettings settings)
  exact (hset _).of_ok hrun (faithful_blank hcolumns hrows)

/-! ## Solvers that are up to date -/

/-- The solver holds the active linear program, with the coefficients that both of their lines know.
-/
structure UpToDate (lp : Relaxation Simplex) : Prop where
  rectangular : lp.solver.Rectangular
  nrColumns : lp.solver.nrColumns = lp.columns.size
  nrRows : lp.solver.nrRows = lp.rows.size
  cost : ∀ {i : Nat} {c}, lp.columns[i]? = some c →
    lp.solver.cost? i = Simplex.finiteEnd? (lp.matrix.column c).spec.objective
  bounds : ∀ {i : Nat} {c}, lp.columns[i]? = some c → lp.solver.bounds? i = some
    (Simplex.toBounds (lp.matrix.column c).spec.bounds.lower (lp.matrix.column c).spec.bounds.upper)
  sides : ∀ {j : Nat} {r row}, lp.rows[j]? = some r → lp.matrix.row? r = some row →
    lp.solver.sides? j =
      some (Simplex.toBounds (row.spec.solverSide .lower) (row.spec.solverSide .upper))
  entry : ∀ {i j : Nat} {c r}, lp.columns[i]? = some c → lp.rows[j]? = some r →
    lp.solver.cell? j i = some (lp.matrix.linked c r)

/-- Where nothing is left to tell, the solver holds the active linear program. -/
theorem Faithful.upToDate (h : lp.Faithful) (hsynced : lp.matrix.synced = true) : lp.UpToDate := by
  have hlp := h.tracked.coherent
  have hmatched := h.tracked.matched hsynced
  have hcolumnSent {i : Nat} {c : ColumnRef} (hi : lp.columns[i]? = some c) :
      (lp.matrix.column c).sent = (lp.matrix.column c).spec := by
    refine (hmatched.column c ?_).symm
    rw [(hlp.solverPosition_column c i).mpr (hmatched.columns ▸ hi), Option.isSome_some]
  obtain ⟨hrectangular, hnrColumns, hnrRows, hcost, hbounds, hsides, hentry⟩ := h.conveyed
  rw [hmatched.columns] at hnrColumns
  rw [hmatched.rows] at hnrRows
  refine ⟨hrectangular, hnrColumns, hnrRows, fun hi => ?_, fun hi => ?_, fun {j r row} hj hrow => ?_,
    fun {i j c r} hi hj => ?_⟩
  · rw [hcost (hmatched.columns ▸ hi), hcolumnSent hi]
  · rw [hbounds (hmatched.columns ▸ hi), hcolumnSent hi]
  · have hsent : row.spec = row.sent := by
      refine hmatched.row hrow ?_
      rw [(hlp.solverPosition_row hrow j).mpr (hmatched.rows ▸ hj), Option.isSome_some]
    rw [hsides (hmatched.rows ▸ hj) hrow, hsent]
  · obtain ⟨row, hrow, -⟩ := hlp.exists_row_of_mem (Array.mem_of_getElem? hj)
    exact hentry (hmatched.columns ▸ hi) (hmatched.rows ▸ hj) hrow (hmatched.columnsUnmarked c)
      (hmatched.rowsUnmarked hrow)

/-- Of relaxations with the same active linear program, the solvers hold the same. -/
theorem UpToDate.sameContents (h : lp.UpToDate) (ht : t.UpToDate) (hlp : lp.Coherent)
    (hcolumns : t.columns = lp.columns) (hrows : t.rows = lp.rows)
    (hcolumnSpec : ∀ c ∈ lp.columns, (t.matrix.column c).spec = (lp.matrix.column c).spec)
    (hrowSpec : ∀ r ∈ lp.rows, (t.matrix.row? r).map (·.spec) = (lp.matrix.row? r).map (·.spec))
    (hlinked : ∀ c ∈ lp.columns, ∀ r ∈ lp.rows, t.matrix.linked c r = lp.matrix.linked c r) :
    SameContents lp.solver t.solver := by
  have hcolumn {i : Nat} (hi : i < lp.solver.nrColumns) : ∃ c, lp.columns[i]? = some c ∧
      t.columns[i]? = some c ∧ c ∈ lp.columns := by
    have hget := Array.getElem?_eq_getElem (hi.trans_eq h.nrColumns)
    exact ⟨_, hget, by rw [hcolumns, hget], Array.mem_of_getElem? hget⟩
  have hrow {j : Nat} (hj : j < lp.solver.nrRows) : ∃ r, lp.rows[j]? = some r ∧
      t.rows[j]? = some r ∧ r ∈ lp.rows := by
    have hget := Array.getElem?_eq_getElem (hj.trans_eq h.nrRows)
    exact ⟨_, hget, by rw [hrows, hget], Array.mem_of_getElem? hget⟩
  refine Simplex.Restricts.sameContents h.rectangular ⟨?_, ?_, ht.rectangular, fun i hi => ?_,
    fun i hi => ?_, fun j hj => ?_, fun j hj i hi => ?_⟩
  · rw [ht.nrColumns, h.nrColumns, hcolumns]
  · rw [ht.nrRows, h.nrRows, hrows]
  · obtain ⟨c, hc, hc', hmem⟩ := hcolumn hi
    rw [ht.cost hc', h.cost hc, hcolumnSpec c hmem]
  · obtain ⟨c, hc, hc', hmem⟩ := hcolumn hi
    rw [ht.bounds hc', h.bounds hc, hcolumnSpec c hmem]
  · obtain ⟨r, hr, hr', hmem⟩ := hrow hj
    obtain ⟨row, hrow, -⟩ := hlp.exists_row_of_mem hmem
    have hsame := hrowSpec r hmem
    rw [hrow, Option.map_some] at hsame
    obtain ⟨row', hrow', hspec⟩ := Option.map_eq_some_iff.mp hsame
    rw [ht.sides hr' hrow', h.sides hr hrow, hspec]
  · obtain ⟨c, hc, hc', hcolumnMem⟩ := hcolumn hi
    obtain ⟨r, hr, hr', hrowMem⟩ := hrow hj
    rw [ht.entry hc' hr', h.entry hc hr, hlinked c hcolumnMem r hrowMem]

end Relaxation

end CertifiedLp
