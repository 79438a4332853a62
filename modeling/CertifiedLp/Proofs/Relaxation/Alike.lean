import Mathlib
import CertifiedLp.Proofs.Relaxation.Awareness
import CertifiedLp.Proofs.Solver.Transactions

/-!
# Alike relaxations

Two relaxations that are to be brought up to date are alike if they differ in nothing but what a
synchronization does not look at, or overwrites: the state of the solver apart from what it holds,
whether the relaxation counts as synced, queued rows that say nothing new, and what is known about
the solution. A call of the solver that succeeds for both of them leaves them alike.
-/

namespace CertifiedLp

/-- Whether a row says something else than what the solver was told last. -/
def Row.hasNews (row : Row) : Bool := row.spec ≠ row.sent

theorem Row.hasNews_eq_false {row : Row} : row.hasNews = false ↔ row.spec = row.sent := by
  rw [Row.hasNews, decide_eq_false_iff_not, not_not]

namespace ConstraintMatrix

/-- What changes of rows leave alone. -/
theorem map_row?_modifyRows {β : Type} {g : Row → β} {f : Row → Row}
    (hf : ∀ row, g (f row) = g row) (m : ConstraintMatrix) (rs : List RowRef) (r : RowRef) :
    ((m.modifyRows rs f).row? r).map g = (m.row? r).map g := by
  induction rs using List.reverseRecOn with
  | nil => rfl
  | append_singleton rs s ih =>
    rw [modifyRows_concat, row?_modifyRow]
    split
    · rw [Option.map_map, show g ∘ f = g from funext hf, ih]
    · exact ih

/-- Rows are determined by what is found under their references. -/
theorem rows_ext {m m' : ConstraintMatrix} (hsize : m'.rows.size = m.rows.size)
    (h : ∀ r, m'.row? r = m.row? r) : m'.rows = m.rows := by
  refine Array.ext hsize fun i hi hi' => ?_
  have hrow := h ⟨i⟩
  simpa only [row?, Array.getElem?_eq_getElem hi, Array.getElem?_eq_getElem hi',
    Option.join_some] using hrow

theorem size_modifyRows (m : ConstraintMatrix) (rs : List RowRef) (f : Row → Row) :
    (m.modifyRows rs f).rows.size = m.rows.size := by
  induction rs using List.reverseRecOn with
  | nil => rfl
  | append_singleton rs r ih =>
    rw [modifyRows_concat]
    exact Array.size_modify.trans ih

end ConstraintMatrix

namespace Relaxation

open Solver (Determines HoldSame Transactional)

variable {σ H : Type} [Solver σ] {held : σ → H} {lp t u : Relaxation σ} {s s' : σ}

/-! ## Being alike -/

/-- The queued rows of which the solver has to be told something. -/
def pendingRows (lp : Relaxation σ) : Array RowRef :=
  lp.changedRows.filter fun r => (lp.matrix.row? r).any Row.hasNews

/-- Two relaxations differ in nothing that counts while they are brought up to date. -/
structure Alike (held : σ → H) (lp t : Relaxation σ) : Prop where
  eq : ∃ solver synced changedRows flags status, t = { lp with
    matrix := { lp.matrix with synced }, solver, changedRows, flags, status }
  solver : HoldSame held lp.solver t.solver
  pendingRows : t.pendingRows = lp.pendingRows

instance : IsPreorder (Relaxation σ) (Alike held) where
  refl lp := ⟨⟨_, _, _, _, _, rfl⟩, rfl, rfl⟩
  trans _ _ _ h h' := by
    obtain ⟨⟨_, _, _, _, _, rfl⟩, hsolver, hpending⟩ := h
    obtain ⟨⟨_, _, _, _, _, rfl⟩, hsolver', hpending'⟩ := h'
    exact ⟨⟨_, _, _, _, _, rfl⟩, hsolver'.trans hsolver, hpending'.trans hpending⟩

theorem Alike.symm (h : Alike held lp t) : Alike held t lp := by
  obtain ⟨⟨_, _, _, _, _, rfl⟩, hsolver, hpending⟩ := h
  exact ⟨⟨_, _, _, _, _, rfl⟩, hsolver.symm, hpending.symm⟩

/-- What becomes of the solver, and of what is known about the solution, does not matter, as long as
the solvers hold the same. -/
theorem Alike.withSolver (h : Alike held lp t) (hs : HoldSame held s s') (flags flags' : Flags)
    (status status' : LpStatus) : Alike held { lp with solver := s, flags, status }
      { t with solver := s', flags := flags', status := status' } := by
  obtain ⟨⟨_, _, _, _, _, rfl⟩, -, hpending⟩ := h
  exact ⟨⟨_, _, _, _, _, rfl⟩, hs, hpending⟩

theorem alike_of_solver (hs : HoldSame held lp.solver s) (flags : Flags) (status : LpStatus) :
    Alike held lp { lp with solver := s, flags, status } :=
  (refl lp : Alike held lp lp).withSolver hs lp.flags flags lp.status status

/-- If neither counts as synced, then the matrices are equal. -/
theorem Alike.exists_eq (h : Alike held lp t) (hlp : lp.matrix.synced = false)
    (ht : t.matrix.synced = false) :
    ∃ solver changedRows flags status, t = { lp with solver, changedRows, flags, status } := by
  obtain ⟨⟨solver, synced, changedRows, flags, status, rfl⟩, -⟩ := h
  obtain rfl : synced = false := ht
  refine ⟨solver, changedRows, flags, status, ?_⟩
  rw [← hlp]

/-! ## Calls -/

/-- A call that succeeds makes the same of what is held. -/
theorem Called.twin {failed : σ → σ → Prop} {p : Prop} {call : SolverM σ Unit} {t t' : σ}
    (hcall : Determines held failed call) (h : HoldSame held s t) (hs : Called p call s s')
    (ht : Called p call t t') : HoldSame held s' t' := by
  by_cases hp : p
  · exact (hcall.twin h (hs.1 hp) (ht.1 hp)).2
  · rw [hs.2 hp, ht.2 hp]
    exact h

theorem Refused.holdSame {p : Prop} {call : SolverM σ Unit} {e : LpError}
    (hcall : Determines held (HoldSame held) call) (h : Refused p call e s s') :
    HoldSame held s s' := by
  obtain ⟨-, e', -, hrun⟩ := h
  exact (hcall.ends s).of_error hrun

/-- An error that comes from the solver. -/
def OfSolver (e : LpError) : Prop := ∃ e', e = .solver e'

omit [Solver σ] in
theorem Refused.ofSolver {p : Prop} {call : SolverM σ Unit} {e : LpError}
    (h : Refused p call e s s') : OfSolver e := by
  obtain ⟨-, e', he, -⟩ := h
  exact ⟨e', he⟩

/-- A stage that makes one call. It prepares the relaxation, which a second time changes nothing, makes
the call, and writes down what it did. If the call is refused, then the relaxation remains
prepared. -/
theorem phase_of_call {x : RelaxationM σ Unit} {P done : Relaxation σ → Prop}
    (p : Relaxation σ → Prop) (call : Relaxation σ → SolverM σ Unit)
    (prepare record : Relaxation σ → Relaxation σ)
    (hends : ∀ {lp}, P lp → Ends x lp
      (fun _ t => ∃ s flags status, Called (p lp) (call (prepare lp)) lp.solver s ∧
        t = { record (prepare lp) with solver := s, flags, status })
      fun e t => ∃ s, Refused (p lp) (call (prepare lp)) e lp.solver s ∧
        t = { prepare lp with solver := s })
    (hkeeps : ∀ {lp}, P lp → Ends x lp (fun _ t => P t ∧ done t) fun _ t => P t)
    (hcall : ∀ lp, Determines held (HoldSame held) (call lp))
    (hprepare : ∀ lp, (prepare lp).solver = lp.solver)
    (hrecord : ∀ lp, (record lp).solver = lp.solver)
    (hidle : ∀ {lp}, P lp → done lp → ¬ p lp ∧ Alike held lp (record (prepare lp)))
    (hrespects : ∀ {lp t}, Alike held lp t → done lp → done t)
    (hagain : ∀ {lp t}, P lp → P t → Alike held lp t ∨ Alike held (prepare lp) t →
      (p t ↔ p lp) ∧ call (prepare t) = call (prepare lp) ∧
        Alike held (prepare lp) (prepare t) ∧
        Alike held (record (prepare lp)) (record (prepare t))) :
    Phase OfSolver (Alike held) (Alike held) P done x where
  keeps := hkeeps
  idle {lp} hlp hdone := by
    obtain ⟨hnot, halike⟩ := hidle hlp hdone
    refine (hends hlp).mono ?_ ?_
    · rintro _ _ ⟨s, flags, status, hs, rfl⟩
      rw [hs.2 hnot]
      exact IsTrans.trans _ _ _ halike (alike_of_solver (by rw [hrecord, hprepare]; rfl) flags status)
    · rintro e t ⟨s, hs, -⟩
      exact hnot hs.1
  respects := hrespects
  resumes := by
    refine ⟨fun lp t => Alike held lp t ∨ Alike held (prepare lp) t, .inl, fun h h' => ?_,
      fun {lp t lp'} hlp ht h hrun => ?_⟩
    · exact h.imp (IsTrans.trans _ _ _ · h') (IsTrans.trans _ _ _ · h')
    obtain ⟨hp, hcalls, hprepared, hrecorded⟩ := hagain hlp ht h
    have hsolver : HoldSame held lp.solver t.solver := by
      rw [← hprepare, ← hprepare t]
      exact hprepared.solver
    obtain ⟨s, flags, status, hs, rfl⟩ := (hends hlp).of_ok hrun
    refine (hends ht).mono ?_ ?_
    · rintro _ _ ⟨s', flags', status', hs', rfl⟩
      rw [hcalls] at hs'
      refine hrecorded.withSolver (Called.twin (hcall _) hsolver hs ?_) ..
      exact ⟨hs'.1 ∘ hp.mpr, fun hn => hs'.2 (hn ∘ hp.mp)⟩
    · rintro e _ ⟨s', hs', rfl⟩
      refine ⟨hs'.ofSolver, .inr (IsTrans.trans _ _ _ hprepared ?_)⟩
      refine alike_of_solver ?_ (prepare t).flags (prepare t).status
      rw [hprepare]
      exact hs'.holdSame (hcall _)

end Relaxation

end CertifiedLp
