import Mathlib
import CertifiedLp.Proofs.Relaxation.Unedited

/-!
# Changes of objective, bounds, sides and constants

What such a change does: the line says something else, and if that is new, then a line that the
solver has is queued, and the solution is obsolete if the line is active. All else is as before.

A relation that *admits changes* relates the relaxation before such a change to the one after it. Then
every operation that changes what lines say goes along the relation, and so does what brings the lines
back to where they were before a dive, rows that are left apart.
-/

namespace CertifiedLp

namespace Interval

@[simp] theorem set_get (i : Interval) (side : Side) : i.set side (i.get side) = i := by
  cases side <;> rfl

@[simp] theorem set_set (i : Interval) (side : Side) (v w : Extended) :
    (i.set side v).set side w = i.set side w := by cases side <;> rfl

theorem allows_of_isValid {i : Interval} (h : i.isValid = true) (side : Side) :
    side.allows (i.get side) = true := by
  rw [isValid, Bool.and_eq_true, Bool.and_eq_true] at h
  cases side
  · exact h.1.2
  · exact h.2

/-- Another end that may be used. -/
theorem allows_set {i : Interval} {side : Side} {v : Extended}
    (h : ∀ side : Side, side.allows (i.get side) = true) (hv : side.allows v = true) (other : Side) :
    other.allows ((i.set side v).get other) = true := by
  have hother := h other
  cases side <;> cases other <;> assumption

end Interval

/-! ## What lines may say -/

/-- The objective coefficient is rational, and no end of the bounds excludes everything. -/
structure ColumnSpec.Sensible (spec : ColumnSpec) : Prop where
  objective : spec.objective.isInfinite = false
  bounds : ∀ side : Side, side.allows (spec.bounds.get side) = true

/-- The constant is rational, and no side excludes everything. -/
structure RowSpec.Sensible (spec : RowSpec) : Prop where
  constant : spec.constant.isInfinite = false
  sides : ∀ side : Side, side.allows (spec.sides.get side) = true

namespace ConstraintMatrix

/-- Nothing changes if a column already is what it is changed to. -/
theorem modifyColumn_eq_self {m : ConstraintMatrix} {c : ColumnRef} {f : Column → Column}
    (h : f (m.column c) = m.column c) : m.modifyColumn c f = m := by
  rw [modifyColumn]
  congr 1
  refine Array.ext (Array.size_modify) fun i hi hi' => ?_
  rw [Array.getElem_modify]
  split
  · next heq =>
    have hcolumn : m.column c = m.columns[i] := by
      simp [column, Array.getD_eq_getD_getElem?, heq, hi']
    rw [← hcolumn, h]
  · rfl

theorem modifyRow_eq_self {m : ConstraintMatrix} {r : RowRef} {f : Row → Row}
    (h : ∀ row, m.row? r = some row → f row = row) : m.modifyRow r f = m := by
  rw [modifyRow]
  congr 1
  refine Array.ext (Array.size_modify) fun i hi hi' => ?_
  rw [Array.getElem_modify]
  split
  · next heq =>
    cases hrow : m.rows[i] with
    | none => rfl
    | some row =>
      have hrow' : m.row? r = some row := by
        simp [row?, heq, hi', hrow]
      rw [Option.map_some, h row hrow']
  · rfl

end ConstraintMatrix

namespace Relaxation

variable {σ : Type} [Solver σ] {lp t : Relaxation σ} {c : ColumnRef} {r : RowRef} {row : Row}
variable {spec : ColumnSpec} {E : LpError → Relaxation σ → Prop}

/-- Without a solution, no bound for the objective is known. -/
theorem Obsolete.objective (h : lp.Obsolete) : lp.objective = .negInf := by
  rw [Relaxation.objective, h.solved]
  rfl

theorem ends_losePrimal (lp : Relaxation σ) :
    Ends losePrimal lp (fun _ t => ∃ flags, t = { lp with flags }) fun _ _ => False := ⟨_, rfl⟩

theorem ends_loseDual (lp : Relaxation σ) :
    Ends loseDual lp (fun _ t => ∃ flags, t = { lp with flags }) fun _ _ => False := ⟨_, rfl⟩

/-- The status and what it is about are the same, unless the solution is obsolete. -/
def KeepsOutcome (lp t : Relaxation σ) : Prop :=
  (t.flags.solved = lp.flags.solved ∧ t.status = lp.status) ∨ t.Obsolete

/-- Nothing differs but what lines say, the sums over columns, the queues, the dive, and what is known
about the solution, which may be obsolete. -/
structure Restated (lp t : Relaxation σ) : Prop where
  solver : t.solver = lp.solver
  settings : t.settings = lp.settings
  columns : t.columns = lp.columns
  rows : t.rows = lp.rows
  solverObjective : t.solverObjective = lp.solverObjective
  cutoff : t.cutoff = lp.cutoff
  nrSolves : t.nrSolves = lp.nrSolves
  stored : t.stored = lp.stored
  outcome : KeepsOutcome lp t

theorem restated_self (lp : Relaxation σ) : Restated lp lp :=
  ⟨rfl, rfl, rfl, rfl, rfl, rfl, rfl, rfl, .inl ⟨rfl, rfl⟩⟩

/-! ## Columns -/

/-- A column says something else, and nothing else changed but the sums, the queue, and what is known
about the solution. -/
structure Respecified (c : ColumnRef) (spec : ColumnSpec) (lp t : Relaxation σ) : Prop
    extends Restated lp t where
  matrix : ∃ b, t.matrix = { lp.matrix.modifyColumn c ({ · with spec }) with synced := b }
  changedRows : t.changedRows = lp.changedRows
  dive : t.dive = lp.dive
  pseudo : t.pseudo =
    if (lp.matrix.column c).spec.bestObjective? = spec.bestObjective? then lp.pseudo
    else lp.pseudo.replace (lp.matrix.column c).spec.bestObjective? spec.bestObjective?
  loose : t.loose =
    if (lp.matrix.column c).spec.bestObjective? = spec.bestObjective? ∨ (lp.matrix.column c).isActive
    then lp.loose
    else lp.loose.replace (lp.matrix.column c).spec.bestObjective? spec.bestObjective?
  sensible : (lp.matrix.column c).spec.Sensible → spec.Sensible
  stillQueued : ∀ d ∈ lp.changedColumns, d ∈ t.changedColumns
  queued : (lp.matrix.column c).spec ≠ spec →
    (lp.matrix.column c).solverPosition.isSome = true → c ∈ t.changedColumns
  synced : t.matrix.synced = true → lp.matrix.synced = true ∧ t.changedColumns = lp.changedColumns
  obsolete : (lp.matrix.column c).spec ≠ spec → (lp.matrix.column c).isActive = true → t.Obsolete

/-- A change to what a column says already. -/
theorem respecified_self (lp : Relaxation σ) (c : ColumnRef) :
    Respecified c (lp.matrix.column c).spec lp lp where
  toRestated := restated_self lp
  matrix := ⟨lp.matrix.synced, by rw [ConstraintMatrix.modifyColumn_eq_self rfl]⟩
  changedRows := rfl
  dive := rfl
  pseudo := by simp
  loose := by simp
  sensible := id
  stillQueued _ := id
  queued h := (h rfl).elim
  synced h := ⟨h, rfl⟩
  obsolete h := (h rfl).elim

theorem ends_updateSpec (f : ColumnSpec → ColumnSpec) :
    Ends (updateSpec c f) lp (fun _ t =>
      let before := (lp.matrix.column c).spec.bestObjective?
      let after := (f (lp.matrix.column c).spec).bestObjective?
      t = { lp with
        matrix := lp.matrix.modifyColumn c ({ · with spec := f (lp.matrix.column c).spec })
        pseudo := if before = after then lp.pseudo else lp.pseudo.replace before after
        loose := if before = after ∨ (lp.matrix.column c).isActive then lp.loose
          else lp.loose.replace before after }) E := by
  rw [updateSpec, Ends.bind_iff, ends_getColumn, Ends.bind_iff, ends_modifyMatrix, Ends.ite_iff]
  refine ⟨fun hne => ?_, fun heq => ?_⟩
  · rw [Ends.bind_iff, Ends.modify_iff, Ends.ite_iff]
    refine ⟨fun hinactive => ?_, fun hactive => ?_⟩
    · rw [Bool.not_eq_true'] at hinactive
      simp [hne, hinactive]
    · simp_all
  · simp [not_not.mp heq]

/-- A column that the solver has is queued. -/
theorem ends_queueColumn :
    Ends (queueColumn c) lp (fun _ t => ∃ b changed,
      t = { lp with matrix := { lp.matrix with synced := b }, changedColumns := changed } ∧
        (∀ d ∈ lp.changedColumns, d ∈ changed) ∧
        ((lp.matrix.column c).solverPosition.isSome = true → c ∈ changed) ∧
        (b = true → lp.matrix.synced = true ∧ changed = lp.changedColumns)) E := by
  rw [queueColumn, Ends.bind_iff, ends_getColumn, Ends.ite_iff]
  refine ⟨fun _ => ?_, fun hnone => ?_⟩
  · rw [Ends.bind_iff, Ends.modify_iff, desync, ends_modifyMatrix]
    split
    · next hmem => exact ⟨false, _, rfl, fun _ => id, fun _ => hmem, fun h => by cases h⟩
    · exact ⟨false, _, rfl, fun d hd => Array.mem_push_of_mem c hd, fun _ => Array.mem_push_self,
        fun h => by cases h⟩
  · exact ⟨lp.matrix.synced, _, rfl, fun _ => id, fun h => (hnone h).elim, fun h => ⟨h, rfl⟩⟩

/-- The column says something new. -/
theorem ends_respecify (f : ColumnSpec → ColumnSpec) {lose : RelaxationM σ Unit}
    (hlose : ∀ lp : Relaxation σ, Ends lose lp
      (fun _ t => ∃ flags, t = { lp with flags }) fun _ _ => False)
    (hf : (lp.matrix.column c).spec.Sensible → (f (lp.matrix.column c).spec).Sensible) :
    Ends (do
      updateSpec c f
      queueColumn c
      if (lp.matrix.column c).isActive then
        lose
        markUnsolved : RelaxationM σ Unit) lp
      (fun _ t => Respecified c (f (lp.matrix.column c).spec) lp t) E := by
  rw [Ends.bind_iff]
  refine (ends_updateSpec f).mono_ok fun _ t₁ ht₁ => ?_
  rw [Ends.bind_iff]
  refine ends_queueColumn.mono_ok fun _ t₂ ⟨b, changed, ht₂, hstill, hqueued, hsynced⟩ => ?_
  have hposition : (t₁.matrix.column c).solverPosition = (lp.matrix.column c).solverPosition := by
    rw [ht₁]
    refine ConstraintMatrix.column_modifyColumn_congr Column.solverPosition _ c ?_ c
    exact fun _ => rfl
  have hdone (flags : Flags) (status : LpStatus)
      (houtcome : KeepsOutcome lp { t₂ with flags, status })
      (hobsolete : (lp.matrix.column c).isActive = true → Obsolete { t₂ with flags, status }) :
      Respecified c (f (lp.matrix.column c).spec) lp { t₂ with flags, status } := by
    subst ht₂ ht₁
    exact {
      toRestated := ⟨rfl, rfl, rfl, rfl, rfl, rfl, rfl, rfl, houtcome⟩
      matrix := ⟨b, rfl⟩
      changedRows := rfl
      dive := rfl
      pseudo := rfl
      loose := rfl
      sensible := hf
      stillQueued := hstill
      queued := fun _ hsome => hqueued (hposition ▸ hsome)
      synced := hsynced
      obsolete := fun _ => hobsolete }
  rw [Ends.ite_iff]
  refine ⟨fun _ => ?_, fun hinactive => ?_⟩
  · rw [Ends.bind_iff]
    refine (hlose t₂).mono (fun _ t₃ ⟨flags, ht₃⟩ => ?_) fun _ _ h => h.elim
    subst ht₃
    have hobsolete : Obsolete { t₂ with
        flags := { flags with solved := false }
        status := .notSolved } := ⟨rfl, rfl⟩
    exact hdone _ _ (.inr hobsolete) fun _ => hobsolete
  · have hsame : t₂.flags = lp.flags ∧ t₂.status = lp.status := by
      rw [ht₂, ht₁]
      exact ⟨rfl, rfl⟩
    exact hdone t₂.flags t₂.status (.inl ⟨congrArg Flags.solved hsame.1, hsame.2⟩)
      fun h => (hinactive h).elim

/-- A column is changed to say something, unless it says so already. -/
theorem ends_respecifyIfNew {p : Prop} [Decidable p] (f : ColumnSpec → ColumnSpec)
    {lose : RelaxationM σ Unit}
    (hlose : ∀ lp : Relaxation σ, Ends lose lp
      (fun _ t => ∃ flags, t = { lp with flags }) fun _ _ => False)
    (hf : (lp.matrix.column c).spec.Sensible → (f (lp.matrix.column c).spec).Sensible)
    (hp : ¬ p → f (lp.matrix.column c).spec = (lp.matrix.column c).spec) :
    Ends (if p then do
      updateSpec c f
      queueColumn c
      if (lp.matrix.column c).isActive then
        lose
        markUnsolved
      else pure ()
    else pure () : RelaxationM σ Unit) lp
      (fun _ t => Respecified c (f (lp.matrix.column c).spec) lp t) E := by
  rw [Ends.ite_iff]
  refine ⟨fun _ => ends_respecify f hlose hf, fun hsame => ?_⟩
  rw [hp hsame]
  exact respecified_self lp c

theorem ends_changeObjective (c : ColumnRef) (objective : Extended) :
    Ends (changeObjective c objective) lp
      (fun _ t => Respecified c { (lp.matrix.column c).spec with objective } lp t ∧
        objective.isInfinite = false)
      fun _ t => t = lp := by
  rw [changeObjective, Ends.ite_iff]
  refine ⟨fun _ => rfl, fun hfinite => ?_⟩
  have hrational : objective.isInfinite = false := Bool.eq_false_iff.mpr hfinite
  rw [Ends.bind_iff, ends_getColumn]
  refine (ends_respecifyIfNew ({ · with objective }) ends_loseDual
    (fun hspec => ⟨hrational, hspec.bounds⟩) fun hsame => ?_).mono_ok fun _ t ht => ⟨ht, hrational⟩
  rw [← not_not.mp hsame]

theorem ends_changeBound (c : ColumnRef) (side : Side) (value : Extended) :
    Ends (changeBound c side value) lp
      (fun _ t => Respecified c { (lp.matrix.column c).spec with
        bounds := (lp.matrix.column c).spec.bounds.set side value } lp t)
      fun _ t => t = lp := by
  rw [changeBound, Ends.ite_iff]
  refine ⟨fun _ => rfl, fun hallows => ?_⟩
  rw [Ends.bind_iff, ends_getColumn]
  refine ends_respecifyIfNew (fun spec => { spec with bounds := spec.bounds.set side value })
    ends_losePrimal (fun hspec => ⟨hspec.objective, ?_⟩) fun hsame => ?_
  · exact Interval.allows_set hspec.bounds (by simpa using hallows)
  · rw [← not_not.mp hsame, Interval.set_get]

theorem ends_changeBound_allowed (c : ColumnRef) (side : Side) (value : Extended) :
    Ends (changeBound c side value) lp (fun _ _ => side.allows value = true) fun _ _ => True := by
  rw [changeBound, Ends.ite_iff]
  refine ⟨fun _ => trivial, fun hallows => ?_⟩
  exact (Ends.self _ _).mono (fun _ _ _ => by simpa using hallows) fun _ _ _ => trivial

/-! ## Rows -/

/-- A change of what a row says, and of what is known of it that depends on that. -/
structure Restates (f : Row → Row) (row : Row) (spec : RowSpec) : Prop where
  spec : (f row).spec = spec
  rest : ∀ row, Forgetting.statement.row (f row) = Forgetting.statement.row row

/-- What does not depend on what a row says is the same. -/
theorem Restates.congr {f : Row → Row} {spec : RowSpec} {β : Type} (h : Restates f row spec)
    (g : Row → β) (hg : ∀ row, g (Forgetting.statement.row row) = g row) (row : Row) :
    g (f row) = g row :=
  Forgetting.row_congr g (h.rest row) hg

/-- A row says something else, and nothing else changed but the queue, and what is known about the
solution. The change may be noted for a dive. -/
structure RowRespecified (r : RowRef) (row : Row) (spec : RowSpec) (lp t : Relaxation σ) : Prop
    extends Restated lp t where
  matrix : ∃ f b, t.matrix = { lp.matrix.modifyRow r f with synced := b } ∧ Restates f row spec
  changedColumns : t.changedColumns = lp.changedColumns
  pseudo : t.pseudo = lp.pseudo
  loose : t.loose = lp.loose
  sensible : row.spec.Sensible → spec.Sensible
  stillQueued : ∀ s ∈ lp.changedRows, s ∈ t.changedRows
  queued : row.spec ≠ spec → row.solverPosition.isSome = true → r ∈ t.changedRows
  synced : t.matrix.synced = true → lp.matrix.synced = true ∧ t.changedRows = lp.changedRows
  obsolete : row.spec ≠ spec → row.isActive = true → t.Obsolete

theorem rowRespecified_self (lp : Relaxation σ) (r : RowRef) (row : Row) :
    RowRespecified r row row.spec lp lp where
  toRestated := restated_self lp
  matrix := ⟨id, lp.matrix.synced,
    by rw [ConstraintMatrix.modifyRow_eq_self (f := id) fun _ _ => rfl], rfl, fun _ => rfl⟩
  changedColumns := rfl
  pseudo := rfl
  loose := rfl
  sensible := id
  stillQueued _ := id
  queued h := (h rfl).elim
  synced h := ⟨h, rfl⟩
  obsolete h := (h rfl).elim

/-- A row that the solver has is queued. -/
theorem ends_queueRow (hrow : lp.matrix.row? r = some row) :
    Ends (queueRow r) lp (fun _ t => ∃ b changed,
      t = { lp with matrix := { lp.matrix with synced := b }, changedRows := changed } ∧
        (∀ s ∈ lp.changedRows, s ∈ changed) ∧
        (row.solverPosition.isSome = true → r ∈ changed) ∧
        (b = true → lp.matrix.synced = true ∧ changed = lp.changedRows)) E := by
  rw [queueRow, Ends.bind_iff, ends_getRow hrow, Ends.ite_iff]
  refine ⟨fun _ => ?_, fun hnone => ?_⟩
  · rw [Ends.bind_iff, Ends.modify_iff, desync, ends_modifyMatrix]
    split
    · next hmem => exact ⟨false, _, rfl, fun _ => id, fun _ => hmem, fun h => by cases h⟩
    · exact ⟨false, _, rfl, fun s hs => Array.mem_push_of_mem r hs, fun _ => Array.mem_push_self,
        fun h => by cases h⟩
  · exact ⟨lp.matrix.synced, _, rfl, fun _ => id, fun h => (hnone h).elim, fun h => ⟨h, rfl⟩⟩

/-- The row says something new. -/
theorem ends_rowRespecify (hrow : lp.matrix.row? r = some row) {spec : RowSpec} {f : Row → Row}
    (hf : Restates f row spec) (hspec : row.spec.Sensible → spec.Sensible) (dive : Option (Dive σ)) :
    Ends (do
      queueRow r
      if row.isActive then
        losePrimal
        markUnsolved : RelaxationM σ Unit)
      { lp with matrix := lp.matrix.modifyRow r f, dive }
      (fun _ t => RowRespecified r row spec lp t ∧ t.dive = dive) E := by
  have hrow' : (lp.matrix.modifyRow r f).row? r = some (f row) := by
    rw [ConstraintMatrix.row?_modifyRow, if_pos rfl, hrow, Option.map_some]
  have hposition : (f row).solverPosition = row.solverPosition :=
    hf.congr Row.solverPosition (fun _ => rfl) row
  rw [Ends.bind_iff]
  refine (ends_queueRow hrow').mono_ok
    fun _ t ⟨b, changed, ht, hstill, hqueued, hsynced⟩ => ?_
  have hdone (flags : Flags) (status : LpStatus)
      (houtcome : KeepsOutcome lp { t with flags, status })
      (hobsolete : row.isActive = true → Obsolete { t with flags, status }) :
      RowRespecified r row spec lp { t with flags, status } := by
    subst ht
    exact {
      toRestated := ⟨rfl, rfl, rfl, rfl, rfl, rfl, rfl, rfl, houtcome⟩
      matrix := ⟨f, b, rfl, hf⟩
      changedColumns := rfl
      pseudo := rfl
      loose := rfl
      sensible := hspec
      stillQueued := hstill
      queued := fun _ hsome => hqueued (hposition ▸ hsome)
      synced := hsynced
      obsolete := fun _ => hobsolete }
  have hdive : t.dive = dive := by rw [ht]
  rw [Ends.ite_iff]
  refine ⟨fun _ => ⟨?_, hdive⟩, fun hinactive => ⟨?_, hdive⟩⟩
  · have hobsolete : Obsolete { t with
        flags := { t.flags with solved := false, primalFeasible := false, primalChecked := false }
        status := .notSolved } := ⟨rfl, rfl⟩
    exact hdone _ _ (.inr hobsolete) fun _ => hobsolete
  · have hsame : t.flags = lp.flags ∧ t.status = lp.status := by
      rw [ht]
      exact ⟨rfl, rfl⟩
    exact hdone t.flags t.status (.inl ⟨congrArg Flags.solved hsame.1, hsame.2⟩)
      fun h => (hinactive h).elim

/-- A side is noted if there is a dive, and then changed, unless it has the value already. -/
theorem ends_changeSide (hrow : lp.matrix.row? r = some row) (side : Side) (value : Extended) :
    Ends (changeSide r side value) lp
      (fun _ t => RowRespecified r row { row.spec with sides := row.spec.sides.set side value }
          lp t ∧
        t.dive = if row.spec.sides.get side = value then lp.dive else lp.dive.map fun dive =>
          { dive with sideLog := dive.sideLog.push (r, side, row.spec.sides.get side) })
      fun _ t => t = lp := by
  rw [changeSide, Ends.ite_iff]
  refine ⟨fun _ => rfl, fun hallows => ?_⟩
  rw [Ends.bind_iff, ends_getRow hrow, Ends.ite_iff]
  refine ⟨fun hnew => ?_, fun hsame => ?_⟩
  · rw [Ends.bind_iff, ends_updateRow hrow, Ends.bind_iff, logSide, Ends.modify_iff, if_neg hnew]
    have hrestates : Restates (fun row : Row =>
        { row with spec := { row.spec with sides := row.spec.sides.set side value } }) row
        { row.spec with sides := row.spec.sides.set side value } := ⟨rfl, fun _ => rfl⟩
    refine ends_rowRespecify hrow hrestates (fun hspec => ⟨hspec.constant, ?_⟩) _
    exact Interval.allows_set hspec.sides (by simpa using hallows)
  · rw [Ends.pure_iff, ← not_not.mp hsame, Interval.set_get, if_pos rfl]
    exact ⟨rowRespecified_self lp r row, rfl⟩

theorem ends_changeSide_missing (hrow : lp.matrix.row? r = none) (side : Side) (value : Extended) :
    Ends (changeSide r side value) lp (fun _ _ => False) fun _ t => t = lp := by
  rw [changeSide, Ends.ite_iff]
  refine ⟨fun _ => rfl, fun _ => ?_⟩
  rw [Ends.bind_iff, ends_getRow_missing hrow]

theorem ends_changeConstant (hrow : lp.matrix.row? r = some row) (constant : Extended) :
    Ends (changeConstant r constant) lp
      (fun _ t => RowRespecified r row { row.spec with constant } lp t ∧ t.dive = lp.dive)
      fun _ t => t = lp := by
  rw [changeConstant, Ends.ite_iff]
  refine ⟨fun _ => rfl, fun hfinite => ?_⟩
  rw [Ends.bind_iff, ends_getRow hrow, Ends.ite_iff]
  refine ⟨fun _ => rfl, fun _ => ?_⟩
  rw [Ends.ite_iff]
  refine ⟨fun _ => ?_, fun hsame => ?_⟩
  · rw [Ends.bind_iff, ends_updateRow hrow]
    have hrestates : Restates (fun row : Row => { row.expireActivity with
        spec := { row.spec with constant }
        integral := row.integral && constant.isIntegral }) row
        { row.spec with constant } := ⟨rfl, fun _ => rfl⟩
    exact ends_rowRespecify hrow hrestates
      (fun hspec => ⟨Bool.eq_false_iff.mpr hfinite, hspec.sides⟩) _
  · rw [Ends.pure_iff, ← not_not.mp hsame]
    exact ⟨rowRespecified_self lp r row, rfl⟩

theorem ends_changeConstant_missing (hrow : lp.matrix.row? r = none) (constant : Extended) :
    Ends (changeConstant r constant) lp (fun _ _ => False) fun _ t => t = lp := by
  rw [changeConstant, Ends.ite_iff]
  refine ⟨fun _ => rfl, fun _ => ?_⟩
  rw [Ends.bind_iff, ends_getRow_missing hrow]

/-! ## Relations that admit changes -/

/-- Bring the linear program back to where it was before a dive, without telling the solver. -/
def undoEdits (problem : Problem) (dive : Dive σ) : RelaxationM σ Unit := do
  for c in (← get).matrix.columnRefs do
    let spec := (problem.get (← getColumn c).origin).spec
    changeObjective c spec.objective
    changeBound c .lower spec.bounds.lower
    changeBound c .upper spec.bounds.upper
  for (r, side, value) in dive.sideLog.toList.reverse do
    if ((← get).matrix.row? r).isSome then changeSide r side value
  shrinkRows dive.nrRows

theorem undoDive_eq (problem : Problem) (dive : Dive σ) :
    (undoDive problem dive : RelaxationM σ Unit) = (do
      undoEdits problem dive
      sync
      onSolver (Solver.setInt .iterationLimit (iterationLimitCode dive.iterationLimit))) := by
  simp only [undoDive, undoEdits, bind_assoc]

/-- A change of what a row says relates the relaxation before it to the one after it. -/
structure AdmitsRowChanges (R : Relaxation σ → Relaxation σ → Prop) : Prop where
  rowRespecified : ∀ {r row spec lp t}, lp.matrix.row? r = some row →
    RowRespecified r row spec lp t → R lp t

/-- So does a change of what a column says. -/
structure AdmitsChanges (R : Relaxation σ → Relaxation σ → Prop) : Prop
    extends AdmitsRowChanges R where
  respecified : ∀ {c spec lp t}, Respecified c spec lp t → R lp t

variable {R : Relaxation σ → Relaxation σ → Prop} [IsPreorder (Relaxation σ) R]

theorem AdmitsRowChanges.changeSide (h : AdmitsRowChanges R) (r : RowRef) (side : Side)
    (value : Extended) : Along R (changeSide r side value : RelaxationM σ Unit) := by
  intro lp
  have hsame (t : Relaxation σ) (ht : t = lp) : R lp t := by
    rw [ht]
    exact refl lp
  cases hrow : lp.matrix.row? r with
  | none => exact (ends_changeSide_missing hrow side value).mono (fun _ _ h => h.elim) fun _ => hsame
  | some row =>
    exact (ends_changeSide hrow side value).mono (fun _ _ ht => h.rowRespecified hrow ht.1)
      fun _ => hsame

theorem AdmitsRowChanges.changeConstant (h : AdmitsRowChanges R) (r : RowRef) (constant : Extended) :
    Along R (changeConstant r constant : RelaxationM σ Unit) := by
  intro lp
  have hsame (t : Relaxation σ) (ht : t = lp) : R lp t := by
    rw [ht]
    exact refl lp
  cases hrow : lp.matrix.row? r with
  | none => exact (ends_changeConstant_missing hrow constant).mono (fun _ _ h => h.elim) fun _ => hsame
  | some row =>
    exact (ends_changeConstant hrow constant).mono (fun _ _ ht => h.rowRespecified hrow ht.1)
      fun _ => hsame

namespace AdmitsChanges

variable (h : AdmitsChanges R)

include h

theorem changeObjective (c : ColumnRef) (objective : Extended) :
    Along R (changeObjective c objective : RelaxationM σ Unit) := by
  intro lp
  refine (ends_changeObjective c objective).mono (fun _ t ht => h.respecified ht.1) fun _ t ht => ?_
  rw [ht]
  exact refl lp

theorem changeBound (c : ColumnRef) (side : Side) (value : Extended) :
    Along R (changeBound c side value : RelaxationM σ Unit) := by
  intro lp
  refine (ends_changeBound c side value).mono (fun _ t ht => h.respecified ht) fun _ t ht => ?_
  rw [ht]
  exact refl lp

/-- What undoes the edits of a dive changes lines and takes rows out. -/
theorem undoEdits (hshrink : ∀ size, Along R (shrinkRows size)) (problem : Problem) (dive : Dive σ) :
    Along R (undoEdits problem dive : RelaxationM σ Unit) := by
  refine .get fun lp => .bind (.forIn (fun c _ => ?_) _) fun _ => ?_
  · refine .bind (along_getColumn c) fun column => ?_
    refine .bind (h.changeObjective c _) fun _ => ?_
    refine .bind (h.changeBound c .lower _) fun _ => ?_
    exact .bind (h.changeBound c .upper _) fun _ => .pure
  refine .bind (.forIn (fun x _ => .get fun lp => ?_) _) fun _ => hshrink _
  exact .ite (.bind (h.changeSide x.1 x.2.1 x.2.2) fun _ => .pure) .pure

end AdmitsChanges

end Relaxation

end CertifiedLp
