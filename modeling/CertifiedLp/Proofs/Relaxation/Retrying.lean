import Mathlib
import CertifiedLp.Proofs.Relaxation.Undoing
import CertifiedLp.Proofs.Simplex.Holding

/-!
# Ending a dive again

The end of a dive undoes the edits and tells the solver. If the solver refuses any of that, the dive is
in progress again, and its end can be taken up again. The end that succeeds at last leaves what an
end that succeeds at once leaves.
-/

namespace CertifiedLp

namespace Relaxation

open Solver (Determines HoldSame Transactional)

variable {σ H : Type} [Solver σ] {held : σ → H} {lp t u v : Relaxation σ} {problem : Problem}
variable {dive : Dive σ} {s : σ} {settings : Settings} {solver : σ} {actions : List Action}
variable {Q : Unit → Relaxation σ → Prop} {E : LpError → Relaxation σ → Prop}

/-! ## Undoing -/

/-- The edits remain undone while the solver is told. -/
theorem ends_sync_undone (hlp : lp.Tracked) (h : Undone problem dive lp) :
    Ends sync lp (fun _ t => Undone problem dive t) fun _ t => Undone problem dive t := by
  have hundone {t : Relaxation σ} (hintact : Intact lp t)
      (hcarries : Carries ConstraintMatrix.Sheds lp t) : Undone problem dive t :=
    ⟨h.matrix.of_sameSpecs hintact.matrix hintact.nrColumns (hcarries hlp.coherent).matrix.live,
      hintact.rows ▸ h.rows⟩
  exact ((intact_sync lp).and (along_sync lp)).mono (fun _ _ ht => hundone ht.1 ht.2)
    fun _ _ ht => hundone ht.1 ht.2

theorem phase_syncUndone (h : Transactional held) (problem : Problem) (dive : Dive σ) :
    Phase OfSolver (Alike held) (Alike held) (fun lp => Surfaced lp ∧ Undone problem dive lp)
      Settled sync := by
  have hsurfaced : Phase OfSolver (Alike held) (Alike held) Surfaced Settled sync :=
    (phase_sync h).restrict fun {lp} _ hdive => (intact_sync lp).mono
      (fun _ _ ht => ht.dive.trans hdive) fun _ _ ht => ht.dive.trans hdive
  exact hsurfaced.restrict fun hlp => ends_sync_undone hlp.1

/-- A call to the solver changes nothing but the solver. -/
theorem ends_onSolver_only (x : SolverM σ Unit) (lp : Relaxation σ) :
    Ends (onSolver x) lp (fun _ t => ∃ s, x.run.run lp.solver = (.ok (), s) ∧ t = withSolver s lp)
      fun _ t => ∃ s, t = withSolver s lp :=
  ends_onSolver.mpr ((Ends.self x lp.solver).mono (fun _ s hs => ⟨s, hs, rfl⟩) fun _ s _ => ⟨s, rfl⟩)

/-- A call that fails without effect is simply made again. -/
theorem resumes_onSolver {x : SolverM σ Unit} {P : Relaxation σ → Prop}
    (h : Determines held (HoldSame held) x) :
    Resumes OfSolver (Alike held) (Alike held) P (onSolver x) := by
  refine .of_restart fun {lp t lp'} _ _ halike hrun => ?_
  obtain ⟨s, hs, rfl⟩ := (ends_onSolver_only x lp).of_ok hrun
  rw [ends_onSolver]
  refine ((Ends.self x t.solver).and (h.ends t.solver)).mono (fun _ s' hs' => ?_) fun e s' hs' => ?_
  · exact halike.withSolver (h.twin halike.solver hs hs'.1).2 lp.flags t.flags lp.status t.status
  · exact ⟨⟨e, rfl⟩, alike_of_solver hs'.2 t.flags t.status⟩

/-- The iteration limit is told to the solver only. -/
theorem ends_setInt_settled (hlp : (Surfaced lp ∧ Undone problem dive lp) ∧ Settled lp)
    (parameter : IntParameter) (value : Int) :
    Ends (onSolver (Solver.setInt parameter value)) lp
      (fun _ t => (Surfaced t ∧ Undone problem dive t) ∧ Settled t)
      fun _ t => (Surfaced t ∧ Undone problem dive t) ∧ Settled t := by
  have hkept {s : σ} (ht : (withSolver s lp).Tracked) :
      (Surfaced (withSolver s lp) ∧ Undone problem dive (withSolver s lp)) ∧
        Settled (withSolver s lp) := by
    obtain ⟨⟨⟨-, hdive⟩, hmatrix, hrows⟩, ⟨h₁, h₂, h₃⟩, ⟨h₄, h₅, h₆⟩, hsettled⟩ := hlp
    exact ⟨⟨⟨ht, hdive⟩, hmatrix, hrows⟩, ⟨h₁, h₂, h₃⟩, ⟨h₄, h₅, h₆⟩, hsettled⟩
  refine ((ends_onSolver_only _ lp).and (hlp.1.1.1.ends (tracks_setInt parameter value))).mono ?_ ?_
  · rintro _ _ ⟨⟨s, -, rfl⟩, ht⟩
    exact hkept ht
  · rintro _ _ ⟨⟨s, rfl⟩, ht⟩
    exact hkept ht

/-- However often it failed to undo a dive, that can be taken up again. -/
theorem resumes_undoDive (h : Transactional held) (problem : Problem) (dive : Dive σ) :
    Resumes OfSolver (SameButSolver held) (Alike held) Surfaced (undoDive problem dive) := by
  rw [undoDive_eq]
  have hsync := phase_syncUndone h problem dive
  refine (phase_undoEdits problem dive).resumes_bind (hsync.resumes_bind
    (resumes_onSolver (h.setInt _ _)) (fun hlp hsettled => ?_) id) (fun hlp hundone => ?_)
    SameButSolver.alike
  · exact ends_setInt_settled ⟨hlp, hsettled⟩ _ _
  · rw [Ends.bind_iff]
    exact (hsync.keeps ⟨hlp, hundone⟩).mono_ok fun _ _ ht =>
      (ends_setInt_settled ht _ _).mono (fun _ _ hu => hu.1) fun _ _ hu => hu.1

/-- Afterwards the solver is up to date. -/
theorem ends_undoDive (hlp : Surfaced lp) (problem : Problem) (dive : Dive σ) :
    Ends (undoDive problem dive) lp (fun _ t => Surfaced t ∧ t.matrix.synced = true)
      fun _ t => Surfaced t := by
  rw [undoDive_eq, Ends.bind_iff]
  refine ((ends_undoEdits problem dive hlp.2).and (hlp.1.ends (tracks_undoEdits problem dive))).mono
    (fun _ t₁ h₁ => ?_) fun _ _ h => ⟨h.2, h.1⟩
  rw [Ends.bind_iff]
  refine ((ends_sync h₁.2).and (intact_sync t₁)).mono (fun _ t₂ h₂ => ?_)
    fun _ _ h => ⟨h.1, h.2.dive.trans h₁.1.1⟩
  have hdive := h₂.2.dive.trans h₁.1.1
  refine ((ends_onSolver_only _ t₂).and (h₂.1.1.ends (tracks_setInt _ _))).mono ?_ ?_
  · rintro _ _ ⟨⟨s, -, rfl⟩, ht⟩
    exact ⟨⟨ht, hdive⟩, h₂.1.2⟩
  · rintro _ _ ⟨⟨s, rfl⟩, ht⟩
    exact ⟨ht, hdive⟩

/-- Of relaxations that are alike and up to date, no more than what is known about the solution
differs. -/
theorem Alike.exists_withOutcome (h : Alike held lp t) (hlp : lp.Tracked)
    (hlpSynced : lp.matrix.synced = true) (ht : t.Tracked) (htSynced : t.matrix.synced = true) :
    ∃ s flags status, HoldSame held lp.solver s ∧ t = withOutcome s flags status lp := by
  have hqueue := (ht.aware.inStep htSynced).changedRows
  obtain ⟨⟨s, synced, changedRows, flags, status, rfl⟩, hs, -⟩ := h
  obtain rfl : changedRows = lp.changedRows :=
    hqueue.trans (hlp.aware.inStep hlpSynced).changedRows.symm
  obtain rfl : synced = lp.matrix.synced := htSynced.trans hlpSynced.symm
  exact ⟨s, flags, status, hs, rfl⟩

/-! ## Closing -/

/-- Let the solver start from where it was before a dive, if it can. -/
def reviveSolver (dive : Dive σ) : RelaxationM σ Unit :=
  tryCatch (onSolver (Solver.restore dive.snapshot)) fun _ => pure ()

/-- Bring back what was known about the solution before a dive. -/
def reviveSolution (dive : Dive σ) : RelaxationM σ Unit :=
  if dive.stored then restoreSolution
  else do
    markUnsolved
    modify ({ · with flags := { dive.flags with solved := false } })

/-- What is left to do when a dive is undone. -/
def closeDive (dive : Dive σ) : RelaxationM σ Unit := do
  setIterationLimit dive.iterationLimit
  reviveSolver dive
  reviveSolution dive

theorem ends_endDive_iff (hdive : lp.dive = some dive) :
    Ends (endDive problem) lp Q E ↔
      Ends (undoDive problem dive) { lp with dive := none } (fun _ t => Ends (closeDive dive) t Q E)
        fun e t => E e { t with dive := some dive } := by
  rw [endDive, Ends.bind_iff, Ends.get_iff]
  split
  · next hnone => cases hnone.symm.trans hdive
  · next dive' hdive' =>
    obtain rfl : dive' = dive := Option.some.inj (hdive'.symm.trans hdive)
    simp only [closeDive, reviveSolver, reviveSolution, Ends.bind_iff, Ends.modify_iff,
      Ends.tryCatch_iff, Ends.throw_iff]

theorem ends_reviveSolver (h : Transactional held) (lp : Relaxation σ) :
    Ends (reviveSolver dive) lp (fun _ t => SameButSolver held lp t) fun _ _ => False := by
  rw [reviveSolver, Ends.tryCatch_iff, ends_onSolver]
  exact (h.restore dive.snapshot lp.solver).mono (fun _ s hs => ⟨s, hs, rfl⟩)
    fun _ s hs => ⟨s, hs, rfl⟩

/-- What was known about the solution while the dive was undone does not matter. -/
theorem ends_reviveSolution (hs : HoldSame held lp.solver s) (flags : Flags) (status : LpStatus)
    (hrun : (reviveSolution dive).run.run lp = (.ok (), v)) :
    Ends (reviveSolution dive) (withOutcome s flags status lp) (fun _ u => SameButSolver held v u)
      fun _ _ => False := by
  rw [reviveSolution] at hrun ⊢
  by_cases hstored : dive.stored = true
  · rw [if_pos hstored] at hrun ⊢
    have hself : v = withSolver lp.solver v := by
      have h : restoreSolution.run.run lp = (.ok (), withSolver lp.solver v) :=
        restoreSolution_withOutcome lp.solver lp.flags lp.status hrun
      rw [hrun] at h
      exact congrArg (·.2) h
    rw [Ends, restoreSolution_withOutcome s flags status hrun]
    exact ⟨s, by rw [hself]; exact hs, rfl⟩
  · rw [if_neg hstored] at hrun ⊢
    cases hrun
    exact ⟨s, hs, rfl⟩

theorem ends_closeDive (h : Transactional held) (hs : HoldSame held lp.solver s) (flags : Flags)
    (status : LpStatus) (hrun : (closeDive dive).run.run lp = (.ok (), v)) :
    Ends (closeDive dive) (withOutcome s flags status lp) (fun _ u => SameButSolver held v u)
      fun _ _ => False := by
  have hrevive {lp₁ : Relaxation σ}
      (hrun : (reviveSolver dive >>= fun _ => reviveSolution dive).run.run lp₁ = (.ok (), v))
      (hs : HoldSame held lp₁.solver s) :
      Ends (reviveSolver dive >>= fun _ => reviveSolution dive) (withOutcome s flags status lp₁)
        (fun _ u => SameButSolver held v u) fun _ _ => False := by
    obtain ⟨_, _, hrestored, hrun⟩ := run_bind_eq_ok.mp hrun
    obtain ⟨s₂, hs₂, rfl⟩ := (ends_reviveSolver h lp₁).of_ok hrestored
    rw [Ends.bind_iff]
    refine (ends_reviveSolver h _).mono_ok ?_
    rintro _ _ ⟨s', hs', rfl⟩
    have hheld : HoldSame held (withSolver s₂ lp₁).solver s' := hs'.trans (hs.trans hs₂.symm)
    exact ends_reviveSolution hheld flags status hrun
  obtain ⟨_, lp₁, hlimit, hrun⟩ := run_bind_eq_ok.mp hrun
  cases hlimit
  rw [closeDive, Ends.bind_iff]
  exact hrevive hrun hs

/-- What was known about the solution is no matter of the lines, or of the solver. -/
theorem unedited_reviveSolution {S : σ → σ → Prop} [IsPreorder σ S] (dive : Dive σ) :
    Along (Unedited S) (reviveSolution dive) :=
  .ite unedited_restoreSolution <| .bind unedited_markUnsolved fun _ =>
    .modify fun _ => unedited_status ..

/-- Apart from the iteration limit, only the solver changes, and what is known about the solution. -/
theorem ends_closeDive_unedited (dive : Dive σ) (lp : Relaxation σ) :
    Ends (closeDive dive) lp (fun _ t => Unedited Whatever
      { lp with settings := { lp.settings with iterationLimit := dive.iterationLimit } } t)
      fun _ _ => True := by
  have hsolver : Along (Unedited Whatever) (reviveSolver dive) :=
    .tryCatch (unedited_onSolver along_whatever) fun _ => .pure
  rw [closeDive, Ends.bind_iff, setIterationLimit, Ends.modify_iff]
  exact ((hsolver.bind fun _ => unedited_reviveSolution dive) _).mono (fun _ _ ht => ht)
    fun _ _ _ => trivial

theorem ends_closeDive_dive (dive : Dive σ) (lp : Relaxation σ) :
    Ends (closeDive dive) lp (fun _ t => t.dive = lp.dive) fun _ _ => True :=
  (ends_closeDive_unedited dive lp).mono_ok fun _ _ ht => ht.dive

/-! ## Failed ends -/

/-- The end of a dive failed while the dive was undone. Since then the solver may have changed, as long
as it holds the same. -/
structure FailedEnd (held : σ → H) (problem : Problem) (lp t : Relaxation σ) : Prop where
  undoing : ∃ dive e u, lp.dive = some dive ∧
    (undoDive problem dive).run.run { lp with dive := none } = (.error e, u)
  run : ∃ e u, (endDive problem).run.run lp = (.error e, u) ∧ SameButSolver held u t

theorem FailedEnd.exists_undoDive (h : FailedEnd held problem lp t) :
    ∃ dive e u, lp.dive = some dive ∧
      (undoDive problem dive).run.run { lp with dive := none } = (.error e, u) ∧
        SameButSolver held { u with dive := some dive } t := by
  obtain ⟨⟨dive, e, u, hdive, hundo⟩, e', v, hrun, hsame⟩ := h
  have hends : Ends (endDive problem) lp (fun _ _ => False)
      fun _ v => v = { u with dive := some dive } := by
    rw [ends_endDive_iff hdive, Ends, hundo]
  exact ⟨dive, e, u, hdive, hundo, hends.of_error hrun ▸ hsame⟩

/-- The dive remains in progress. -/
theorem FailedEnd.dive_eq (h : FailedEnd held problem lp t) : t.dive = lp.dive := by
  obtain ⟨dive, e, u, hdive, -, s, -, rfl⟩ := h.exists_undoDive
  exact hdive.symm

theorem dive_of_failedEnds (h : Relation.ReflTransGen (FailedEnd held problem) lp t) :
    t.dive = lp.dive := by
  induction h with
  | refl => rfl
  | tail _ hstep ih => exact hstep.dive_eq.trans ih

theorem Tracked.surfaced (h : lp.Tracked) : Surfaced { lp with dive := none } := by
  have hleave : Along Tracks
      (modify fun lp => { lp with dive := none } : RelaxationM σ PUnit) :=
    tracks_modify fun _ => ⟨rfl, rfl, rfl, rfl, rfl, rfl⟩
  exact ⟨hleave lp h, rfl⟩

theorem tracked_withSolver (h : Transactional held) (hlp : lp.Tracked)
    (hs : HoldSame held lp.solver s) : (withSolver s lp).Tracked where
  coherent := by
    obtain ⟨hsound, hplaced, hcolumns, hrows, hcounts⟩ := hlp.coherent
    exact ⟨hsound, hplaced, hcolumns, hrows, fun hall =>
      ⟨(h.nrColumns hs).trans (hcounts hall).1, (h.nrRows hs).trans (hcounts hall).2⟩⟩
  aware := aware_congr hlp.aware rfl rfl rfl rfl rfl

/-- An end that succeeds first undid the dive. -/
theorem exists_undone (hdive : lp.dive = some dive)
    (hrun : (endDive problem).run.run lp = (.ok (), v)) :
    ∃ t, (undoDive problem dive).run.run { lp with dive := none } = (.ok (), t) ∧
      (closeDive dive).run.run t = (.ok (), v) := by
  have hends : Ends (endDive problem) lp
      (fun _ v => ∃ t, (undoDive problem dive).run.run { lp with dive := none } = (.ok (), t) ∧
        (closeDive dive).run.run t = (.ok (), v)) fun _ _ => True :=
    (ends_endDive_iff hdive).mpr <| (Ends.self _ _).mono (fun _ t ht =>
      (Ends.self _ t).mono (fun _ v hv => ⟨t, ht, hv⟩) fun _ _ _ => trivial) fun _ _ _ => trivial
  exact hends.of_ok hrun

/-- After any number of failed ends, an end that succeeds leaves what it leaves if it succeeds at
once, and one that does not is a failed end. -/
theorem ends_endDive_retried (h : Transactional held) (hlp : lp.Tracked)
    (hdive : lp.dive = some dive) (hs : HoldSame held lp.solver s)
    (hfirst : (endDive problem).run.run (withSolver s lp) = (.ok (), v))
    (hfailed : Relation.ReflTransGen (FailedEnd held problem) lp t) :
    Ends (endDive problem) t (fun _ u => SameButSolver held v u ∧ u.isDiving = false)
      fun e u => OfSolver e ∧ FailedEnd held problem t u := by
  obtain ⟨M, hbegin, hclosed, hresumes⟩ := resumes_undoDive h problem dive
  have hdive₀ : (withSolver s lp).dive = some dive := hdive
  obtain ⟨w, hundo, hclose⟩ := exists_undone hdive₀ hfirst
  have hstart := (tracked_withSolver h hlp hs).surfaced
  have hchain : t.dive = some dive ∧ Surfaced { t with dive := none } ∧
      M { withSolver s lp with dive := none } { t with dive := none } := by
    induction hfailed with
    | refl => exact ⟨hdive, hlp.surfaced, hbegin ⟨lp.solver, hs.symm, rfl⟩⟩
    | tail _ hstep ih =>
      obtain ⟨hdive, ht, hM⟩ := ih
      obtain ⟨dive', e, u, hdive', hrun, s', hs', rfl⟩ := hstep.exists_undoDive
      obtain rfl : dive' = dive := Option.some.inj (hdive'.symm.trans hdive)
      obtain ⟨⟨-, hu⟩, htracked, hnone⟩ :=
        ((hresumes hstart ht hM hundo).and (ends_undoDive ht problem dive')).of_error hrun
      have heq : { withSolver s' { u with dive := some dive' } with dive := none } =
          withSolver s' u := by
        rw [withSolver, withSolver, ← hnone]
      rw [heq]
      exact ⟨rfl, ⟨tracked_withSolver h htracked hs', hnone⟩, hclosed hu ⟨s', hs', rfl⟩⟩
  obtain ⟨hdive, ht, hM⟩ := hchain
  obtain ⟨hw, hwSynced⟩ := (ends_undoDive hstart problem dive).of_ok hundo
  have hends : Ends (endDive problem) t
      (fun _ u => SameButSolver held v u ∧ u.isDiving = false) fun e _ => OfSolver e ∧
        ∃ dive e' u', t.dive = some dive ∧
          (undoDive problem dive).run.run { t with dive := none } = (.error e', u') := by
    rw [ends_endDive_iff hdive]
    refine ((Ends.self _ _).and ((hresumes hstart ht hM hundo).and
      (ends_undoDive ht problem dive))).mono ?_ ?_
    · rintro _ t' ⟨-, halike, ht', htSynced⟩
      obtain ⟨s', flags, status, hs', rfl⟩ :=
        halike.exists_withOutcome hw.1 hwSynced ht'.1 htSynced
      refine (ends_closeDive h hs' flags status hclose).mono (fun _ u hu => ⟨hu, ?_⟩)
        fun _ _ hu => hu.elim
      obtain ⟨s'', -, rfl⟩ := hu
      have hnone : v.dive = none := ((ends_closeDive_dive dive w).of_ok hclose).trans hw.2
      rw [isDiving, show (withSolver s'' v).dive = none from hnone, Option.isSome_none]
    · rintro e t' ⟨hrun, ⟨he, -⟩, -⟩
      exact ⟨he, dive, e, t', hdive, hrun⟩
  exact ((Ends.self _ t).and hends).mono (fun _ _ hu => hu.2)
    fun e u hu => ⟨hu.2.1, hu.2.2, e, u, hu.1, refl u⟩

/-- On top of a solver whose calls fail without effect, the end of a dive can be taken up again as
often as it fails. The dive remains in progress until an end succeeds, and that leaves the
relaxation, and what the solver holds, as an end would that succeeds at once. -/
theorem endDive_retried (h : Transactional held) (hcreate : create solver settings = .ok lp)
    (hactions : Throughout Permits lp actions) (hdiving : (lp.performAll actions).isDiving = true)
    (hfailed : Relation.ReflTransGen (FailedEnd held problem) (lp.performAll actions) t) :
    t.isDiving = true ∧ ∀ s v, HoldSame held (lp.performAll actions).solver s →
      (endDive problem).run.run (withSolver s (lp.performAll actions)) = (.ok (), v) →
      Ends (endDive problem) t (fun _ u => SameButSolver held v u ∧ u.isDiving = false)
        fun e u => OfSolver e ∧ FailedEnd held problem t u := by
  obtain ⟨dive, hdive⟩ := Option.isSome_iff_exists.mp hdiving
  refine ⟨?_, fun s v hs hfirst => ?_⟩
  · rw [isDiving, dive_of_failedEnds hfailed]
    exact hdiving
  · exact ends_endDive_retried h ((tracked_create hcreate).performAll hactions) hdive hs hfirst
      hfailed

/-! ### A small dive -/

/-- The solver is told which calls fail from now on. -/
def refusing (failing : List Operation) (lp : Relaxation (Scripted (Atomic Simplex))) :
    Relaxation (Scripted (Atomic Simplex)) :=
  withSolver { lp.solver with failing } lp

/-- A relaxation without lines, on top of a solver that does not delete rows. -/
def undeleting : Relaxation (Scripted (Atomic Simplex)) :=
  (blank { Scripted.around ⟨Simplex.empty⟩ with failing := [.deleteRows] }).after
    (setSettings .standard)

theorem create_undeleting :
    create { Scripted.around (⟨Simplex.empty⟩ : Atomic Simplex) with failing := [.deleteRows] }
      .standard = .ok undeleting := rfl

/-- In a dive, a bound is changed and a row is added, and the solver is told. -/
def divingActions : List Action := [
  .createColumn smallProblem ⟨0⟩, .addColumn ⟨0⟩, .startDive false, .changeBound ⟨0⟩ .upper 2,
  .createRow "r" ⟨⟨1, .posInf⟩, 0⟩, .edit ⟨0⟩ ⟨0⟩ (.addInRow 1), .addRow ⟨0⟩, .sync]

theorem failedEnd_refusing {lp : Relaxation (Scripted (Atomic Simplex))}
    {held : Scripted (Atomic Simplex) → H} (hdiving : lp.isDiving = true)
    (hundo : { lp with dive := none }.accepts (undoDive problem (lp.dive.get hdiving)) = false)
    (failing : List Operation)
    (hheld : ∀ s : Scripted (Atomic Simplex), HoldSame held s { s with failing }) :
    FailedEnd held problem lp (refusing failing (lp.after (endDive problem))) := by
  obtain ⟨e, hrun⟩ := exists_error_of_refuses hundo
  have hdive : lp.dive = some (lp.dive.get hdiving) := (Option.some_get _).symm
  have hend : Ends (endDive problem) lp (fun _ _ => False) fun _ _ => True := by
    rw [ends_endDive_iff hdive, Ends, hrun]
    trivial
  refine ⟨⟨_, e, _, hdive, hrun⟩, ?_⟩
  cases haccepts : lp.accepts (endDive problem) with
  | true => exact (hend.of_ok (run_of_accepts haccepts)).elim
  | false =>
    obtain ⟨e', hrun'⟩ := exists_error_of_refuses haccepts
    exact ⟨e', _, hrun', _, hheld _, rfl⟩

/-- The end of the dive fails since the row is not deleted, and then since the bounds are not changed.
The third time it succeeds. -/
theorem endDive_retried_small :
    let lp := undeleting.performAll divingActions
    let t := refusing [.changeBounds] (lp.after (endDive smallProblem))
    let u := refusing [] (t.after (endDive smallProblem))
    u.isDiving = true ∧
      SameButSolver (Scripted.holds fun s : Atomic Simplex => s.inner.bare)
        ((refusing [] lp).after (endDive smallProblem)) (u.after (endDive smallProblem)) := by
  intro lp t u
  have hpermits : Throughout Permits undeleting divingActions := by decide +kernel
  have ht : FailedEnd (Scripted.holds fun s : Atomic Simplex => s.inner.bare) smallProblem lp t :=
    failedEnd_refusing (by decide +kernel) (by decide +kernel) [.changeBounds] fun _ => rfl
  have hu : FailedEnd (Scripted.holds fun s : Atomic Simplex => s.inner.bare) smallProblem t u :=
    failedEnd_refusing (by decide +kernel) (by decide +kernel) [] fun _ => rfl
  obtain ⟨hdiving, hretried⟩ := endDive_retried (Scripted.transactional Simplex.transactional_atomic)
    create_undeleting hpermits (by decide +kernel) (.tail (.single ht) hu)
  have hfirst : (refusing [] lp).accepts (endDive smallProblem) = true := by decide +kernel
  have hlast : u.accepts (endDive smallProblem) = true := by decide +kernel
  refine ⟨hdiving, ?_⟩
  exact ((hretried (refusing [] lp).solver _ rfl (run_of_accepts hfirst)).of_ok
    (run_of_accepts hlast)).1

end Relaxation

end CertifiedLp
