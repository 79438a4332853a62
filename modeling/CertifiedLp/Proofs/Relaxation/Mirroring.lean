import Mathlib
import CertifiedLp.Proofs.Matrix.Consistent
import CertifiedLp.Proofs.Relaxation.Actions
import CertifiedLp.Proofs.Simplex.Sizes

/-!
# Runs of actions

What actions make of a new relaxation, one after the other, and also where some of them fail: the
lists of columns and rows fit together, every line knows where it is, and the solver has the lines
that the matrix says.
-/

namespace CertifiedLp

namespace Relaxation

variable {σ : Type} [Solver σ] {lp : Relaxation σ} {solver : σ} {settings : Settings}
variable {actions : List Action}

/-! ## New relaxations -/

theorem coherent_blank (hcolumns : Solver.nrColumns solver = 0) (hrows : Solver.nrRows solver = 0) :
    (blank solver).Coherent where
  sound := ConstraintMatrix.sound_empty
  placed := placed_empty
  columnsAgree := .refl #[]
  rowsAgree := .refl #[]
  counts _ := ⟨hcolumns, hrows⟩

/-- A relaxation is created on top of a solver without lines, which accepts the settings. -/
theorem of_create (h : create solver settings = .ok lp) :
    (Solver.nrColumns solver = 0 ∧ Solver.nrRows solver = 0) ∧
      (setSettings settings).run.run (blank solver) = (.ok (), lp) := by
  rw [create] at h
  split at h
  · cases h
  · next hempty =>
    simp only [Bool.or_eq_true, decide_eq_true_eq, not_or, Nat.not_lt, Nat.le_zero_eq] at hempty
    split at h
    · next hrun =>
      cases h
      exact ⟨hempty, hrun⟩
    · cases h

/-- A new relaxation has no lines, and the solver has none. -/
theorem quiet_create (h : create solver settings = .ok lp) :
    (blank solver).Coherent ∧ Quiet (blank solver) lp := by
  obtain ⟨⟨hcolumns, hrows⟩, hrun⟩ := of_create h
  exact ⟨coherent_blank hcolumns hrows, (quiet_setSettings settings _).of_ok hrun⟩

/-- A new relaxation is coherent, and all its coefficients are zero. -/
theorem records_create (h : create solver settings = .ok lp) : lp.Records fun _ _ => 0 := by
  obtain ⟨hblank, hquiet⟩ := quiet_create h
  refine ⟨(hquiet.carries hblank).coherent, ?_⟩
  rw [ConstraintMatrix.amount_of_shape hquiet.shape]
  exact funext fun c => funext fun r => ConstraintMatrix.amount_empty c r

/-! ## Runs -/

/-- Do what several actions say, one after the other. An action that fails may have had effects. -/
def performAll (lp : Relaxation σ) : List Action → Relaxation σ
  | [] => lp
  | a :: rest => (lp.after (perform a)).performAll rest

/-- Something holds of every action of a run and the relaxation that it meets. -/
def Throughout (P : Relaxation σ → Action → Prop) (lp : Relaxation σ) : List Action → Prop
  | [] => True
  | a :: rest => P lp a ∧ Throughout P (lp.after (perform a)) rest

instance decidableThroughout (P : Relaxation σ → Action → Prop) [∀ lp a, Decidable (P lp a)]
    (lp : Relaxation σ) (actions : List Action) : Decidable (Throughout P lp actions) :=
  match actions with
  | [] => .isTrue trivial
  | a :: rest =>
    have := decidableThroughout P (lp.after (perform a)) rest
    inferInstanceAs (Decidable (P lp a ∧ Throughout P (lp.after (perform a)) rest))

instance (lp : Relaxation σ) (a : Action) : Decidable (lp.Permits a) :=
  inferInstanceAs (Decidable (∀ c ∈ a.columns, c.index < lp.matrix.columns.size))

/-- What every permitted action keeps, a run keeps. -/
theorem performAll_keeps {I : Relaxation σ → Prop}
    (hstep : ∀ {lp a}, I lp → lp.Permits a → I (lp.after (perform a))) (h : I lp)
    (hactions : Throughout Permits lp actions) : I (lp.performAll actions) := by
  induction actions generalizing lp with
  | nil => exact h
  | cons a rest ih => exact ih (hstep h hactions.1) hactions.2

/-- What all actions keep, permitted or not, a run keeps. -/
theorem performAll_preserves {I : Relaxation σ → Prop}
    (hstep : ∀ a, Along (Preserves I) (perform a : RelaxationM σ Unit)) (h : I lp)
    (actions : List Action) : I (lp.performAll actions) := by
  induction actions generalizing lp with
  | nil => exact h
  | cons a rest ih => exact ih ((hstep a).state lp h)

/-- A run keeps a relaxation coherent. -/
theorem Coherent.performAll (h : lp.Coherent)
    (hactions : Throughout Permits lp actions) : (lp.performAll actions).Coherent :=
  performAll_keeps Coherent.perform h hactions

/-- The matrix is consistent, positions are those in the lists, the active lines are those in the
solver below the first changes, and the solver has as many lines as are listed for it. -/
structure Mirrors (lp : Relaxation σ) : Prop where
  matrix : lp.matrix.Consistent
  activeColumn : ∀ c i, (lp.matrix.column c).activePosition = some i ↔ lp.columns[i]? = some c
  solverColumn : ∀ c i, (lp.matrix.column c).solverPosition = some i ↔
    lp.matrix.solverColumns[i]? = some c
  activeRow : ∀ {r row}, lp.matrix.row? r = some row →
    ∀ i, row.activePosition = some i ↔ lp.rows[i]? = some r
  solverRow : ∀ {r row}, lp.matrix.row? r = some row →
    ∀ i, row.solverPosition = some i ↔ lp.matrix.solverRows[i]? = some r
  columnsAgree : AgreeBelow lp.matrix.firstChangedColumn lp.columns lp.matrix.solverColumns
  rowsAgree : AgreeBelow lp.matrix.firstChangedRow lp.rows lp.matrix.solverRows
  nrColumns : Solver.nrColumns lp.solver = lp.matrix.solverColumns.size
  nrRows : Solver.nrRows lp.solver = lp.matrix.solverRows.size

theorem Coherent.mirrors (h : lp.Coherent) (hs : Solver.AllOrNothing σ) : lp.Mirrors where
  matrix := h.sound.consistent
  activeColumn c := h.placed.columns c trivial
  solverColumn c := h.placed.solverColumns c trivial
  activeRow {r row} hrow i := by
    rw [← h.placed.rows r trivial i, Places.activeRow, ConstraintMatrix.row_places hrow]
    rfl
  solverRow {r row} hrow i := by
    have hplace := ConstraintMatrix.row_places hrow
    have hposition := h.placed.solverRows r (congrArg Option.isSome hplace) i
    rwa [Places.solverRow, hplace] at hposition
  columnsAgree := h.columnsAgree
  rowsAgree := h.rowsAgree
  nrColumns := (h.counts hs).1
  nrRows := (h.counts hs).2

/-- Whatever is done to a relaxation on top of a solver whose calls succeed or fail without effect,
it mirrors what it has in the solver. -/
theorem performAll_mirrors (hs : Solver.AllOrNothing σ) (hcreate : create solver settings = .ok lp)
    (hactions : Throughout Permits lp actions) :
    (lp.performAll actions).Mirrors :=
  ((records_create hcreate).coherent.performAll hactions).mirrors hs

/-! ### A small run -/

/-- A solver that does not take any rows. -/
def smallSolver : Scripted (Atomic Simplex) :=
  { Scripted.around ⟨Simplex.empty⟩ with failing := [.addRows] }

/-- A relaxation without lines, on top of this solver. -/
def small : Relaxation (Scripted (Atomic Simplex)) :=
  (blank smallSolver).after (setSettings .standard)

/-- A problem with one variable. -/
def smallProblem : Problem := ⟨#[⟨"x", ⟨1, ⟨0, 4⟩⟩, .continuous, none⟩]⟩

/-- A coefficient is stored in its row and increased, and its lines are sent to the solver, which
refuses the row. The coefficient cannot be stored again. Then the column is taken out of the linear
program. -/
def smallActions : List Action := [
  .createColumn smallProblem ⟨0⟩, .createRow "r" ⟨⟨1, .posInf⟩, 0⟩, .edit ⟨0⟩ ⟨0⟩ (.addInRow 1),
  .addColumn ⟨0⟩, .addRow ⟨0⟩, .edit ⟨0⟩ ⟨0⟩ (.increase 2), .sync,
  .edit ⟨0⟩ ⟨0⟩ (.addInColumn 5), .shrinkColumns 0]

theorem create_small : create smallSolver .standard = .ok small := rfl

theorem permits_small : Throughout Permits small smallActions := by decide +kernel

/-- Synchronizing stopped between the columns and the rows. -/
theorem performAll_mirrors_small :
    let lp := small.performAll smallActions
    lp.Mirrors ∧ lp.columns = #[] ∧ lp.matrix.solverColumns = #[⟨0⟩] ∧ lp.rows = #[⟨0⟩] ∧
      lp.matrix.solverRows = #[] :=
  ⟨performAll_mirrors (Scripted.allOrNothing Simplex.allOrNothing_atomic) create_small
    permits_small, by decide +kernel, by decide +kernel, by decide +kernel, by decide +kernel⟩

end Relaxation

end CertifiedLp
