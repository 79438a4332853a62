import Mathlib
import CertifiedLp.Relaxation.Consistency
import CertifiedLp.Simplex.Basic
import CertifiedLp.Solver.Scripted

/-!
# The active linear program

What a relaxation says about its columns: the points within the bounds of the active columns that
satisfy the active rows, and the objective value of a point. A coefficient counts wherever it is
stored, in both lists or in one of them only.

The lists that a solve reads have only the linked coefficients. `AllLinked` says that between active
lines there are no others.
-/

namespace CertifiedLp

open Extended (finite)

/-- The values of the entries for a partner that pass a test. -/
def Incidence.valuesFor {κ : Type} [DecidableEq κ] (l : Incidence κ) (partner : κ)
    (test : Entry κ → Bool) : List Extended :=
  (l.entries.toList.filter fun e => e.partner = partner && test e).map (·.value)

namespace ConstraintMatrix

/-- What is stored for a column and a row, each coefficient once: a linked one is read from the
column. -/
def storedValues (m : ConstraintMatrix) (c : ColumnRef) (r : RowRef) : List Extended :=
  (m.column c).entries.valuesFor r (fun _ => true) ++
    match m.row? r with
    | some row => row.entries.valuesFor c (·.link.isNone)
    | none => []

/-- The coefficient of a column in a row, wherever it is stored. -/
def coefficientAt (m : ConstraintMatrix) (c : ColumnRef) (r : RowRef) : Extended :=
  Extended.sum (m.storedValues c r)

/-- A coefficient of a column in a row is in one of their two lists only. -/
def OneSided (m : ConstraintMatrix) (c : ColumnRef) (r : RowRef) : Prop :=
  (∃ e ∈ (m.column c).entries.entries, e.partner = r ∧ e.link = none) ∨
    ∃ row, m.row? r = some row ∧ ∃ e ∈ row.entries.entries, e.partner = c ∧ e.link = none

/-- The numbers of a linear program: objective coefficients, constants and coefficients are
rational, and no bound or side excludes every number. -/
structure Proper (m : ConstraintMatrix) : Prop where
  objective : ∀ c, (m.column c).spec.objective.isFinite = true
  bounds : ∀ c (side : Side), side.allows ((m.column c).spec.bounds.get side) = true
  constant : ∀ r row, m.row? r = some row → row.spec.constant.isFinite = true
  sides : ∀ r row (side : Side), m.row? r = some row → side.allows (row.spec.sides.get side) = true
  columnValue : ∀ c, ∀ e ∈ (m.column c).entries.entries, e.value.isFinite = true
  rowValue : ∀ r row, m.row? r = some row → ∀ e ∈ row.entries.entries, e.value.isFinite = true

end ConstraintMatrix

namespace Relaxation

variable {σ : Type} [Solver σ]

/-- The objective value of a point, the columns that are not active apart. -/
def costAt (lp : Relaxation σ) (x : ColumnRef → Rat) : Extended :=
  Extended.sum (lp.columns.toList.map fun c => (lp.matrix.column c).spec.objective * finite (x c))

/-- The sum of coefficient times value over the active columns. -/
def activityAt (lp : Relaxation σ) (r : RowRef) (x : ColumnRef → Rat) : Extended :=
  Extended.sum (lp.columns.toList.map fun c => lp.matrix.coefficientAt c r * finite (x c))

/-- A point is within the bounds of the active columns and satisfies the active rows. -/
structure IsFeasible (lp : Relaxation σ) (x : ColumnRef → Rat) : Prop where
  bounds : ∀ c ∈ lp.columns, (lp.matrix.column c).spec.bounds.Contains (finite (x c))
  sides : ∀ r ∈ lp.rows, ∀ row, lp.matrix.row? r = some row →
    row.spec.sides.Contains (lp.activityAt r x + row.spec.constant)

/-- Every coefficient between an active column and an active row is in both lists. -/
def AllLinked (lp : Relaxation σ) : Prop :=
  ∀ c ∈ lp.columns, ∀ r ∈ lp.rows, ¬ lp.matrix.OneSided c r

/-- Every line knows its positions in the active linear program and in the solver. -/
structure Positioned (lp : Relaxation σ) : Prop where
  activeColumn : ∀ c i, (lp.matrix.column c).activePosition = some i ↔ lp.columns[i]? = some c
  solverColumn : ∀ c i,
    (lp.matrix.column c).solverPosition = some i ↔ lp.matrix.solverColumns[i]? = some c
  activeRow : ∀ r row i, lp.matrix.row? r = some row →
    (row.activePosition = some i ↔ lp.rows[i]? = some r)
  solverRow : ∀ r row i, lp.matrix.row? r = some row →
    (row.solverPosition = some i ↔ lp.matrix.solverRows[i]? = some r)

/-- The solver has the active columns and rows, in the same order. -/
structure SolverIsActive (lp : Relaxation σ) : Prop where
  columns : lp.matrix.solverColumns = lp.columns
  rows : lp.matrix.solverRows = lp.rows

/-! ## The smallest case -/

/-- One column between zero and ten, of which the value is minimized, and one row that keeps it at
some value at least. The solver gives the answers that it is told to. -/
def single (lhs : Rat) (solution : Option Solution) (farkas : Option (Array Extended)) :
    Relaxation (Scripted Simplex) :=
  let inner : Simplex := ⟨#[⟨1, ⟨some 0, some 10⟩, .lower⟩], #[⟨#[1], ⟨some lhs, none⟩, .basic⟩],
    .standard, none, 0⟩
  { blank { Scripted.around inner with solution, farkas } with
    matrix := {
      columns := #[{ Column.create ⟨0⟩ false ⟨1, ⟨0, 10⟩⟩ with
        entries := ⟨#[⟨⟨0⟩, 1, some 0⟩], 1, 0, 0, 0⟩
        activePosition := some 0
        solverPosition := some 0 }]
      rows := #[some { Row.create "r" ⟨⟨finite lhs, .posInf⟩, 0⟩ with
        entries := ⟨#[⟨⟨0⟩, 1, some 0⟩], 1, 0, 0, 0⟩
        activePosition := some 0
        solverPosition := some 0 }]
      solverColumns := #[⟨0⟩]
      solverRows := #[⟨0⟩]
      firstChangedColumn := 1
      firstChangedRow := 1
      synced := true }
    columns := #[⟨0⟩]
    rows := #[⟨0⟩] }

variable (lhs : Rat) (solution : Option Solution) (farkas : Option (Array Extended))

theorem isConsistent_single : (single lhs solution farkas).isConsistent = true := by cbv

theorem proper_single : (single lhs solution farkas).matrix.Proper where
  objective c := by rcases c with ⟨_ | n⟩ <;> rfl
  bounds c side := by rcases c with ⟨_ | n⟩ <;> cases side <;> rfl
  constant r row h := by
    rcases r with ⟨_ | n⟩ <;> cases h
    rfl
  sides r row side h := by
    rcases r with ⟨_ | n⟩ <;> cases h
    cases side <;> rfl
  columnValue c e he := by
    rcases c with ⟨_ | n⟩
    · obtain rfl := Array.mem_singleton.mp he
      rfl
    · exact absurd he (Array.not_mem_empty e)
  rowValue r row h e he := by
    rcases r with ⟨_ | n⟩ <;> cases h
    obtain rfl := Array.mem_singleton.mp he
    rfl

theorem positioned_single : (single lhs solution farkas).Positioned where
  activeColumn c i := by
    rcases c with ⟨_ | n⟩ <;> rcases i with _ | i <;>
      simp [single, ConstraintMatrix.column, default, Column.create]
  solverColumn c i := by
    rcases c with ⟨_ | n⟩ <;> rcases i with _ | i <;>
      simp [single, ConstraintMatrix.column, default, Column.create]
  activeRow r row i h := by
    rcases r with ⟨_ | n⟩ <;> cases h
    rcases i with _ | i <;> simp [single]
  solverRow r row i h := by
    rcases r with ⟨_ | n⟩ <;> cases h
    rcases i with _ | i <;> simp [single]

theorem allLinked_single : (single lhs solution farkas).AllLinked := by
  intro c hc r hr
  obtain rfl := Array.mem_singleton.mp hc
  obtain rfl := Array.mem_singleton.mp hr
  rintro (⟨e, he, -, hlink⟩ | ⟨row, hrow, e, he, -, hlink⟩)
  · obtain rfl := Array.mem_singleton.mp he
    cases hlink
  · cases hrow
    obtain rfl := Array.mem_singleton.mp he
    cases hlink

end Relaxation

end CertifiedLp
