import Mathlib
import CertifiedLp.Proofs.Binary64.Rounding
import CertifiedLp.Proofs.Certificate.Duality
import CertifiedLp.Proofs.Relaxation.Alike
import CertifiedLp.Proofs.Relaxation.Matching
import CertifiedLp.Proofs.Relaxation.Verdicts

/-!
# The aftermath of a solve

A solve that fails for lack of an answer leaves the linear program unsolved. If the solver refuses a
call, then the status remains as it is at that moment: that of the last solve, or that of an answer
whose values cannot be had.

A solve that writes into an approximation gives it the status of the linear program. If a bound is
proved, then the approximation also has that bound, rounded down, or a smaller one.
-/

namespace CertifiedLp

namespace Relaxation

variable {σ : Type} [Solver σ] {α β : Type} {lp t u : Relaxation σ} {e : LpError}
variable {a a' : Approximation} {write : Bool} {limit : Extended} {result : SolveResult}
variable {solver : σ} {settings : Settings} {actions : List Action} {start : Relaxation σ}

/-! ## Attempts to get an answer -/

/-- Nothing changed but the solver. -/
def Handled (lp t : Relaxation σ) : Prop := ∃ s, t = { lp with solver := s }

instance : IsPreorder (Relaxation σ) Handled where
  refl lp := ⟨lp.solver, rfl⟩
  trans _ _ _ := by
    rintro ⟨_, rfl⟩ ⟨s, rfl⟩
    exact ⟨s, rfl⟩

/-- The solver refused a call, and only it may have changed, or it gave no answer, and the linear
program counts as unsolved. -/
def Unanswered (lp : Relaxation σ) (e : LpError) (t : Relaxation σ) : Prop :=
  (OfSolver e ∧ Handled lp t) ∨ ((∃ cause, e = .breakdown cause) ∧ t.Obsolete)

/-- An operation changes the solver only, unless there is no answer. -/
def Attempts (x : RelaxationM σ α) : Prop :=
  ∀ lp, Ends x lp (fun _ t => Handled lp t) (Unanswered lp)

namespace Attempts

variable {x y : RelaxationM σ α} {f : α → RelaxationM σ β}

theorem pure {v : α} : Attempts (pure v : RelaxationM σ α) := fun lp =>
  Ends.pure_iff.mpr (refl lp)

theorem bind (hx : Attempts x) (hf : ∀ v, Attempts (f v)) : Attempts (x >>= f) := fun lp => by
  rw [Ends.bind_iff]
  refine (hx lp).mono_ok fun v t ht => (hf v t).mono (fun _ _ hu => IsTrans.trans _ _ _ ht hu) ?_
  rintro e u (⟨he, hu⟩ | hnone)
  · exact .inl ⟨he, IsTrans.trans _ _ _ ht hu⟩
  · exact .inr hnone

theorem get {f : Relaxation σ → RelaxationM σ β} (h : ∀ lp, Attempts (f lp)) :
    Attempts (MonadState.get >>= f) := fun lp => Ends.bind_iff.mpr (h lp lp)

theorem ite {p : Prop} [Decidable p] (hx : Attempts x) (hy : Attempts y) :
    Attempts (if p then x else y) := by
  split
  · exact hx
  · exact hy

theorem onSolver (call : SolverM σ α) : Attempts (onSolver call) := fun lp =>
  ends_onSolver.mpr ((Ends.self call lp.solver).mono (fun _ s _ => ⟨s, rfl⟩)
    fun e s _ => .inl ⟨⟨e, rfl⟩, s, rfl⟩)

theorem askSolver (f : σ → Except SolverError α) : Attempts (askSolver f) := fun lp =>
  ends_askSolver_iff.mpr ⟨fun _ _ => refl lp, fun e _ => .inl ⟨⟨e, rfl⟩, refl lp⟩⟩

theorem succeeds (call : SolverM σ Unit) : Attempts (succeeds call) := fun lp =>
  (ends_succeeds call lp).mono (fun _ t ht => ⟨t.solver, ht.1⟩) fun _ _ h => h.elim

theorem breakdown (cause : Breakdown) :
    Attempts (do markUnsolved; throw (.breakdown cause) : RelaxationM σ α) :=
  fun _ => .inr ⟨⟨cause, rfl⟩, rfl, rfl⟩

theorem runSolver : Attempts (runSolver : RelaxationM σ Bool) :=
  .bind (.succeeds _) fun _ => .ite .pure (.bind (.onSolver _) fun _ => .succeeds _)

theorem chooseStart (a : Approximation) : Attempts (chooseStart a : RelaxationM σ Unit) := by
  refine .get fun lp => ?_
  dsimp only
  split
  · exact .bind (.onSolver _) fun _ => .onSolver _
  · exact .onSolver _

/-- An objective limit is confirmed, or not at all. -/
theorem confirmObjectiveLimit (limit : Extended) :
    Attempts (confirmObjectiveLimit limit : RelaxationM σ Answer) := by
  refine .bind (.askSolver _) fun _ => .bind (.askSolver _) fun _ => .bind (.askSolver _) fun _ => ?_
  -- the parameters of the single iteration
  refine .bind (.onSolver _) fun _ => .bind (.onSolver _) fun _ => ?_
  refine .bind (.onSolver _) fun _ => .bind (.onSolver _) fun _ => ?_
  refine .bind (.succeeds _) fun _ => ?_
  -- the parameters as they were
  refine .bind (.onSolver _) fun _ => .bind (.onSolver _) fun _ => ?_
  refine .bind (.onSolver _) fun _ => .bind (.onSolver _) fun _ => .get fun _ => ?_
  split
  · exact .pure
  · exact .pure
  · exact .pure
  · exact .pure
  · exact .breakdown _

theorem takeAnswer (limit : Extended) : Attempts (takeAnswer limit : RelaxationM σ Answer) := by
  refine .get fun lp => ?_
  split
  · exact .breakdown _
  · exact .bind (.askSolver _) fun _ => .ite (.confirmObjectiveLimit limit) .pure
  · exact .pure

end Attempts

/-! ## Rows that the solver has -/

/-- The solver has no row that does not exist any more. -/
def RowsLive (lp : Relaxation σ) : Prop :=
  ∀ r ∈ lp.matrix.solverRows, (lp.matrix.row? r).isSome = true

theorem RowsLive.handled (hlp : lp.RowsLive) (h : Handled lp t) : t.RowsLive := by
  obtain ⟨_, rfl⟩ := h
  exact hlp

theorem Attempts.ends_rowsLive {x : RelaxationM σ α} (hx : Attempts x) (hlp : lp.RowsLive) :
    Ends x lp (fun _ t => t.RowsLive) fun _ _ => True :=
  (hx lp).mono (fun _ _ => hlp.handled) fun _ _ _ => trivial

/-- After the solver was brought up to date, it has live rows only. -/
theorem Tracked.ends_prepareSolve (hlp : lp.Tracked) (a : Approximation) :
    Ends (prepareSolve a) lp (fun _ t => t.RowsLive) fun _ _ => True := by
  rw [prepareSolve, Ends.bind_iff]
  refine (ends_sync hlp).mono (fun _ t ht => ?_) fun _ _ _ => trivial
  have hmatched := ht.1.matched ht.2
  have hlive : t.RowsLive := fun r hr => hmatched.live r (hmatched.rows ▸ hr)
  refine Attempts.ends_rowsLive (.get fun lp => ?_) hlive
  split
  · exact .pure
  · refine .bind (.onSolver _) fun _ => .bind (.chooseStart a) fun _ => .get fun _ => ?_
    refine .bind (.onSolver _) fun _ => .get fun _ => ?_
    exact .bind (.onSolver _) fun _ => .pure

/-! ## Certificates that cannot be had -/

/-- The same rows exist. -/
def SameLive (lp t : Relaxation σ) : Prop :=
  ∀ r, (t.matrix.row? r).isSome = (lp.matrix.row? r).isSome

theorem sameLive_modifyRow (h : SameLive lp t) (r : RowRef) (f : Row → Row) :
    SameLive lp { t with matrix := t.matrix.modifyRow r f } := fun s => by
  rw [← h s, ConstraintMatrix.row?_modifyRow]
  split
  · exact Option.isSome_map
  · rfl

/-- A loop over the rows that the solver has, which stores something in each. -/
theorem RowsLive.ends_rows (hlp : lp.RowsLive) {γ : Type} {body : γ → RowRef × Nat → RelaxationM σ γ}
    (hbody : ∀ acc x t, (t.matrix.row? x.1).isSome = true →
      Ends (body acc x) t (fun _ u => ∀ lp : Relaxation σ, SameLive lp t → SameLive lp u)
        fun _ _ => False) (init : γ) {E : LpError → Relaxation σ → Prop} :
    Ends (lp.matrix.solverRows.toList.zipIdx.foldlM body init) lp (fun _ t => SameLive lp t) E := by
  refine Ends.foldlM_list (fun _ _ t => SameLive lp t) (fun _ => rfl) ?_
  rintro done ⟨r, i⟩ rest acc t hsplit ht
  have hmem : (r, i) ∈ lp.matrix.solverRows.toList.zipIdx := hsplit ▸ by simp
  have hr : r ∈ lp.matrix.solverRows := by
    simpa using List.fst_mem_of_mem_zipIdx hmem
  exact (hbody acc (r, i) t ((ht r).trans (hlp r hr))).mono (fun _ _ hu => hu lp ht) fun _ _ h => h.elim

/-- What is asked for a solution, the solver may refuse. Nothing else can fail. -/
theorem RowsLive.ends_acceptSolution (hlp : lp.RowsLive) (limit : Option Extended) :
    Ends (acceptSolution a write limit) lp (fun out t => out.2 = if write then t.writeTo a else a)
      fun e _ => OfSolver e := by
  rw [acceptSolution, Ends.bind_iff, ends_askSolver_iff]
  refine ⟨fun solution _ => ?_, fun e _ => ⟨e, rfl⟩⟩
  rw [Ends.bind_iff, ends_askSolver_iff]
  refine ⟨fun basis _ => ?_, fun e _ => ⟨e, rfl⟩⟩
  rw [Ends.bind_iff, Ends.get_iff, Ends.bind_iff]
  refine (hlp.ends_rows (fun f x t hr => ?_) _).mono_ok fun f t ht => ?_
  · obtain ⟨row, hrow⟩ := Option.isSome_iff_exists.mp hr
    simp only [acceptRow, Ends.bind_iff, ends_getRow hrow, Ends.get_iff, ends_updateRow hrow,
      Ends.pure_iff]
    exact fun lp h => sameLive_modifyRow h x.1 _
  rw [Ends.bind_iff]
  refine (Ends.foldlM_list (fun _ _ _ => True) trivial fun _ x _ f t _ _ => ?_).mono_ok
    fun f t _ => ?_
  · simp only [acceptColumn, Ends.bind_iff, Ends.get_iff, ends_modifyMatrix, Ends.pure_iff]
  · simp only [Ends.bind_iff, Ends.modify_iff, ends_writeIf, Ends.pure_iff]

theorem RowsLive.ends_acceptFarkas (hlp : lp.RowsLive) :
    Ends (acceptFarkas a write) lp (fun out t => out.2 = if write then t.writeTo a else a)
      fun e _ => OfSolver e := by
  rw [acceptFarkas, Ends.bind_iff, ends_askSolver_iff]
  refine ⟨fun multipliers _ => ?_, fun e _ => ⟨e, rfl⟩⟩
  rw [Ends.bind_iff, Ends.get_iff, Ends.bind_iff]
  refine (hlp.ends_rows (fun g x t hr => ?_) _).mono_ok fun g t ht => ?_
  · obtain ⟨row, hrow⟩ := Option.isSome_iff_exists.mp hr
    simp only [Ends.bind_iff, ends_getRow hrow, ends_updateRow hrow, Ends.pure_iff]
    exact fun lp h => sameLive_modifyRow h x.1 _
  rw [Ends.bind_iff]
  refine (Ends.forIn_list (fun _ _ => True) trivial fun _ x _ t _ _ => ?_).mono_ok fun _ t _ => ?_
  · simp only [Ends.bind_iff, ends_modifyMatrix, Ends.pure_iff, and_self]
  · simp only [Ends.bind_iff, Ends.modify_iff, ends_writeIf, Ends.pure_iff]

/-! ## Values that are written -/

/-- An approximation has the objective value, rounded down. Where an objective limit is exceeded, and no
value is left, it has one from before. -/
def Bounded (a : Approximation) (t : Relaxation σ) : Prop :=
  ∃ v, v ≤ t.objective ∧ (t.status ≠ .objectiveLimit → v = t.objective) ∧ a.objective = v.toBelow

theorem bounded_writeTo (t : Relaxation σ) (a : Approximation) : Bounded (t.writeTo a) t :=
  ⟨t.objective, Extended.le_refl _, fun _ => rfl, rfl⟩

/-- The bound is a number, and not above the objective value. -/
theorem Bounded.exists_le (h : Bounded a t) :
    ∃ v, a.objective.toExtended? = some v ∧ v ≤ t.objective := by
  obtain ⟨v, hle, -, heq⟩ := h
  obtain ⟨w, hw, hgreatest⟩ := Extended.isGreatest_toBelow v
  exact ⟨w, heq ▸ hw, Extended.le_trans hgreatest.1.2 hle⟩

/-- With the status changed to an exceeded objective limit, every value is a bound. -/
theorem Bounded.exceeded (h : Bounded a t) (hsolved : t.flags.solved = true) :
    Bounded a { t with status := .objectiveLimit } := by
  obtain ⟨v, -, -, heq⟩ := h
  refine ⟨v, ?_, fun hne => (hne rfl).elim, heq⟩
  rw [objective, hsolved]
  exact Extended.le_posInf v

/-- Only the solver refuses to certify an answer. What is certified is written. -/
theorem RowsLive.ends_certify (hlp : lp.RowsLive) (hsolved : lp.flags.solved = true) (answer : Answer)
    (limit : Extended) (a : Approximation) (write : Bool) :
    Ends (certify answer limit a write) lp
      (fun x t => write = true → x.1 = some true → Bounded x.2 t) fun e _ => OfSolver e := by
  have haccept (answer : Option Extended) : Ends (acceptSolution a write answer) lp
      (fun x t => (write = true → Bounded x.2 t) ∧ t.flags.solved = true) fun e _ => OfSolver e := by
    refine ((hlp.ends_acceptSolution answer).and (remembers_acceptSolution (p := False) a write answer
      lp)).mono (fun x t ht => ⟨fun hwrite => ?_, ?_⟩) fun _ _ h => h.1
    · rw [ht.1, if_pos hwrite]
      exact bounded_writeTo t a
    · exact (ht.2.outcome.resolve_right And.left).1.trans hsolved
  cases answer with
  | optimal =>
    refine Ends.bind_iff.mpr ((haccept none).mono_ok fun x t ht => ?_)
    refine Ends.bind_iff.mpr (Ends.get_iff.mpr (Ends.ite_iff.mpr ⟨fun _ => ?_, fun _ => ?_⟩))
    · exact fun hwrite _ => (ht.1 hwrite).exceeded ht.2
    · exact fun hwrite _ => ht.1 hwrite
  | objectiveLimit =>
    refine Ends.bind_iff.mpr ((haccept (some limit)).mono_ok fun x t ht => ?_)
    exact fun hwrite _ => ht.1 hwrite
  | infeasible =>
    refine Ends.bind_iff.mpr (hlp.ends_acceptFarkas.mono_ok fun x t ht hwrite _ => ?_)
    rw [ht, if_pos hwrite]
    exact bounded_writeTo t a
  | unbounded => exact fun _ hproved => by cases hproved
  | iterationLimit => exact fun _ hproved => by cases hproved
  | timeLimit => exact fun _ hproved => by cases hproved

/-- What an approximation says after a solve that wrote into it. -/
structure Written (result : SolveResult) (a : Approximation) (t : Relaxation σ) : Prop where
  status : a.status = t.status
  solved : a.solved = t.flags.solved
  objective : result.provedBound = true → Bounded a t

theorem RowsLive.ends_conclude (hlp : lp.RowsLive) (answer : Answer) (limit : Extended)
    (a : Approximation) (write : Bool) :
    Ends (conclude answer limit a write) lp
      (fun x t => write = true → x.1.provedBound = true → Bounded x.2 t)
      fun e t => OfSolver e ∧ Answered lp t := by
  have hanswered : Answered lp
      { lp with status := answer.status, flags := { lp.flags with solved := true } } :=
    ⟨rfl, by cases answer <;> rfl, rfl⟩
  have hlive : RowsLive
      { lp with status := answer.status, flags := { lp.flags with solved := true } } := hlp
  rw [conclude, Ends.bind_iff, Ends.modify_iff, Ends.bind_iff]
  refine ((hlive.ends_certify rfl answer limit a write).and
    (Relaxation.ends_certify hanswered rfl limit)).mono (fun x t ht => ?_) fun _ _ h => ⟨h.1, h.2⟩
  rw [Ends.bind_iff, Ends.get_iff]
  split
  · exact fun _ hproved => by cases hproved
  · next hproved =>
    intro hwrite hsome
    obtain ⟨b, hb⟩ := Option.isSome_iff_exists.mp hsome
    cases b with
    | false => exact (hproved hb).elim
    | true => exact ht.1 hwrite hb

/-! ## The aftermath -/

/-- What a failing solve leaves, compared with the relaxation when the solver was prepared: if the
solver refused a call, the status of before or that of an answer, and else an unsolved linear
program. -/
def LeftBehind (lp : Relaxation σ) (e : LpError) (t : Relaxation σ) : Prop :=
  (OfSolver e ∧ (t.flags.solved = lp.flags.solved ∧ t.status = lp.status ∨
    t.flags.solved = true ∧ t.status.isSolved = true)) ∨
    ((∃ cause, e = .breakdown cause) ∧ t.Obsolete)

theorem Unanswered.leftBehind (h : Unanswered t e u) (hsolved : t.flags.solved = lp.flags.solved)
    (hstatus : t.status = lp.status) : LeftBehind lp e u := by
  rcases h with ⟨he, _, rfl⟩ | hnone
  · exact .inl ⟨he, .inl ⟨hsolved, hstatus⟩⟩
  · exact .inr hnone

theorem RowsLive.ends_useAnswer (hlp : lp.RowsLive) (write : Bool) (a : Approximation)
    (limit : Extended) :
    Ends (useAnswer write a limit) lp (fun x t => write = true → Written x.1 x.2 t)
      (LeftBehind lp) := by
  have hcounted : RowsLive { lp with nrSolves := lp.nrSolves + 1 } := hlp
  rw [useAnswer, Ends.bind_iff, Ends.modify_iff, Ends.bind_iff]
  refine (Attempts.takeAnswer limit _).mono (fun answer t ht => ?_) fun _ _ h => h.leftBehind rfl rfl
  have hlive : t.RowsLive := hcounted.handled ht
  rw [Ends.bind_iff]
  refine (hlive.ends_conclude answer limit a write).mono (fun x u hu => ?_)
    fun _ _ h => .inl ⟨h.1, .inr ⟨h.2.solved, h.2.status⟩⟩
  rw [Ends.bind_iff, Ends.get_iff, Ends.ite_iff]
  exact ⟨fun hwrite _ => ⟨rfl, rfl, hu hwrite⟩, fun hwrite h => (hwrite h).elim⟩

/-- What a prepared solve writes, and what it leaves when it fails. Without an answer it writes
nothing. -/
theorem RowsLive.ends_runPrepared (hlp : lp.RowsLive) (write : Bool) (a : Approximation)
    (prepared : Option Extended) :
    Ends (runPrepared write a prepared) lp
      (fun x t => (x.2 = a ∧ (x.1.status = .timeLimit ∨ x.1.status = .error) ∧
        x.1.provedBound = false) ∨ (write = true → Written x.1 x.2 t)) (LeftBehind lp) := by
  cases prepared with
  | none => exact .inl ⟨rfl, .inl rfl, rfl⟩
  | some limit =>
    rw [runPrepared, Ends.bind_iff]
    refine (Attempts.runSolver lp).mono (fun solved t ht => ?_) fun _ _ h => h.leftBehind rfl rfl
    rw [Ends.ite_iff]
    refine ⟨fun _ => ?_, fun _ => .inl ⟨rfl, .inr rfl, rfl⟩⟩
    refine ((hlp.handled ht).ends_useAnswer write a limit).mono (fun _ _ h => .inr h) ?_
    obtain ⟨_, rfl⟩ := ht
    exact fun _ _ h => h

theorem Obsolete.hasSolution (h : t.Obsolete) : t.hasSolution = false := by
  rw [Relaxation.hasSolution, h.solved, Bool.false_and]

theorem LeftBehind.obsolete (h : LeftBehind lp e t) (he : ¬ OfSolver e) : t.Obsolete :=
  h.elim (fun h => (he h.1).elim) And.right

/-- Whatever was done to a relaxation, a solve that fails once the solver is prepared leaves no answer
behind, unless the solver refused a call. -/
theorem performAll_failing (hcreate : create solver settings = .ok start)
    (hactions : Throughout Permits start actions)
    (hprepared : (prepareSolve a).run.run (start.performAll actions) = (.ok (some limit), t))
    (hfails : (solveAnd write a).run.run (start.performAll actions) = (.error e, u)) :
    LeftBehind t e u ∧ (¬ OfSolver e → u.hasSolution = false ∧ u.objective = .negInf) := by
  have hlp := (tracked_create hcreate).performAll hactions
  have hlive : t.RowsLive := (hlp.ends_prepareSolve a).of_ok hprepared
  rw [solveAnd_phases, run_bind, hprepared] at hfails
  have hleft := (hlive.ends_runPrepared write a (some limit)).of_error hfails
  refine ⟨hleft, fun he => ⟨(hleft.obsolete he).hasSolution, (hleft.obsolete he).objective⟩⟩

/-- Whatever was done to a relaxation, a solve that writes into an approximation makes it agree with the
linear program in status, and with a proved bound it writes a number that is not above the objective
value. Nothing is written if the time is used up or the solver fails. -/
theorem performAll_written (hcreate : create solver settings = .ok start)
    (hactions : Throughout Permits start actions)
    (hsolve : (solveAnd true a).run.run (start.performAll actions) = (.ok (result, a'), u)) :
    (a' = a ∧ (result.status = .timeLimit ∨ result.status = .error) ∧ result.provedBound = false) ∨
      (Written result a' u ∧ (result.provedBound = true →
        ∃ v, a'.objective.toExtended? = some v ∧ v ≤ u.objective)) := by
  have hlp := (tracked_create hcreate).performAll hactions
  have hends : Ends (solveAnd true a) (start.performAll actions) (fun x t =>
      (x.2 = a ∧ (x.1.status = .timeLimit ∨ x.1.status = .error) ∧ x.1.provedBound = false) ∨
        (true = true → Written x.1 x.2 t)) fun _ _ => True := by
    rw [solveAnd_phases, Ends.bind_iff]
    refine (hlp.ends_prepareSolve a).mono_ok fun prepared t ht => ?_
    exact (ht.ends_runPrepared true a prepared).mono (fun _ _ h => h) fun _ _ _ => trivial
  refine (hends.of_ok hsolve).imp id fun h => ?_
  exact ⟨h rfl, fun hproved => ((h rfl).objective hproved).exists_le⟩

end Relaxation

end CertifiedLp
