import Mathlib
import CertifiedLp.Proofs.Relaxation.Ignoring
import CertifiedLp.Proofs.Relaxation.Resyncing

/-!
# Undoing the edits of a dive

The columns get the objective and bounds of their variables, the sides that were replaced are brought
back in reverse order, and the rows that were added are removed. This is a phase: to undo once more
what was undone changes at most the queue of rows, and none of them says anything new.
-/

namespace CertifiedLp

/-- A column has the objective and the bounds of its variable, and these are allowed. -/
structure Column.IsReset (problem : Problem) (column : Column) : Prop where
  spec : column.spec = (problem.get column.origin).spec
  objective : column.spec.objective.isInfinite = false
  lower : Side.lower.allows column.spec.bounds.lower = true
  upper : Side.upper.allows column.spec.bounds.upper = true

/-- A row with another side. -/
def Row.withSide (side : Side) (value : Extended) (row : Row) : Row :=
  { row with spec := { row.spec with sides := row.spec.sides.set side value } }

/-- What becomes of the sides of a row when several sides are replaced one after the other. -/
def Interval.replay (sides : Interval) (r : RowRef) (log : List (RowRef × Side × Extended)) :
    Interval :=
  log.foldl (fun sides x => if x.1 = r then sides.set x.2.1 x.2.2 else sides) sides

theorem Interval.replay_concat (sides : Interval) (r : RowRef)
    (log : List (RowRef × Side × Extended)) (x : RowRef × Side × Extended) :
    sides.replay r (log ++ [x]) =
      if x.1 = r then (sides.replay r log).set x.2.1 x.2.2 else sides.replay r log := by
  rw [replay, List.foldl_append]
  rfl

/-- Of several replacements of a side, the last one counts. -/
theorem Interval.exists_replay (r : RowRef) (log : List (RowRef × Side × Extended)) :
    ∃ lower upper : Option Extended, ∀ sides : Interval,
      sides.replay r log = ⟨lower.getD sides.lower, upper.getD sides.upper⟩ := by
  induction log using List.reverseRecOn with
  | nil => exact ⟨none, none, fun _ => rfl⟩
  | append_singleton log x ih =>
    obtain ⟨lower, upper, h⟩ := ih
    obtain ⟨s, side, value⟩ := x
    by_cases hs : s = r
    · cases side with
      | lower => exact ⟨some value, upper, fun sides => by rw [replay_concat, if_pos hs, h]; rfl⟩
      | upper => exact ⟨lower, some value, fun sides => by rw [replay_concat, if_pos hs, h]; rfl⟩
    · exact ⟨lower, upper, fun sides => by rw [replay_concat, if_neg hs, h]⟩

theorem Interval.replay_replay (sides : Interval) (r : RowRef)
    (log : List (RowRef × Side × Extended)) :
    (sides.replay r log).replay r log = sides.replay r log := by
  obtain ⟨lower, upper, h⟩ := exists_replay r log
  rw [h, h]
  cases lower <;> cases upper <;> rfl

namespace ConstraintMatrix

variable {m : ConstraintMatrix} {r : RowRef} {row : Row}

/-- Replace sides of rows, one after the other. -/
def withSides (m : ConstraintMatrix) (log : List (RowRef × Side × Extended)) : ConstraintMatrix :=
  { m with rows := log.foldl (fun rows x =>
      rows.modify x.1.index fun row => row.map (Row.withSide x.2.1 x.2.2)) m.rows }

theorem withSides_concat (m : ConstraintMatrix) (log : List (RowRef × Side × Extended))
    (x : RowRef × Side × Extended) :
    m.withSides (log ++ [x]) = (m.withSides log).modifyRow x.1 (Row.withSide x.2.1 x.2.2) := by
  rw [withSides, List.foldl_append]
  rfl

theorem row?_withSides (m : ConstraintMatrix) (log : List (RowRef × Side × Extended))
    (r : RowRef) : (m.withSides log).row? r = (m.row? r).map fun row =>
      { row with spec := { row.spec with sides := row.spec.sides.replay r log } } := by
  induction log using List.reverseRecOn with
  | nil => exact (congrFun Option.map_id (m.row? r)).symm
  | append_singleton log x ih =>
    rw [withSides_concat, row?_modifyRow, ih]
    simp only [Interval.replay_concat]
    split
    · rw [Option.map_map]
      rfl
    · rfl

theorem size_withSides (m : ConstraintMatrix) (log : List (RowRef × Side × Extended)) :
    (m.withSides log).rows.size = m.rows.size := by
  induction log using List.reverseRecOn with
  | nil => rfl
  | append_singleton log x ih =>
    rw [withSides_concat]
    exact Array.size_modify.trans ih

/-- Nothing changes where all rows have the sides that they would get. -/
theorem withSides_eq_self {log : List (RowRef × Side × Extended)}
    (h : ∀ {r row}, m.row? r = some row → row.spec.sides.replay r log = row.spec.sides) :
    m.withSides log = m := by
  have hrows : (m.withSides log).rows = m.rows := by
    refine rows_ext (size_withSides m log) fun r => ?_
    rw [row?_withSides]
    cases hrow : m.row? r with
    | none => rfl
    | some row => rw [Option.map_some, h hrow]
  exact congrArg (fun rows => { m with rows }) hrows

/-- The columns are reset, and the rows have the sides that they would get. -/
structure Undone (problem : Problem) (log : List (RowRef × Side × Extended))
    (m : ConstraintMatrix) : Prop where
  column : ∀ {c}, c.index < m.columns.size → (m.column c).IsReset problem
  sides : ∀ {r row}, m.row? r = some row → row.spec.sides.replay r log = row.spec.sides
  allowed : ∀ x ∈ log, (m.row? x.1).isSome = true → x.2.1.allows x.2.2 = true

/-- This remains true as long as no line says anything else. Rows may be gone. -/
theorem Undone.of_sameSpecs {problem : Problem} {log : List (RowRef × Side × Extended)}
    {m' : ConstraintMatrix} {gone : Set RowRef} (h : m.Undone problem log)
    (hm : SameSpecs gone m m') (hsize : m'.columns.size = m.columns.size)
    (hlive : ∀ {r}, (m'.row? r).isSome = true → (m.row? r).isSome = true) :
    m'.Undone problem log where
  column hc := by
    rw [hsize] at hc
    obtain ⟨hspec, hobjective, hlower, hupper⟩ := h.column hc
    rw [← hm.column hc] at hspec hobjective hlower hupper
    rw [← hm.origin hc] at hspec
    exact ⟨hspec, hobjective, hlower, hupper⟩
  sides {r row'} hrow' := by
    have hr : r.index < m.rows.size := by
      by_contra hle
      have hlive := hlive (r := r) (by rw [hrow']; rfl)
      rw [row?_of_size_le (Nat.not_lt.mp hle)] at hlive
      cases hlive
    obtain ⟨row, hrow, hspec⟩ := hm.row hr hrow'
    rw [hspec]
    exact h.sides hrow
  allowed x hx hsome := h.allowed x hx (hlive hsome)

end ConstraintMatrix

namespace Relaxation

open ConstraintMatrix (SameSpecs mem_columnRefs)
open Solver (HoldSame Transactional)

variable {σ H : Type} [Solver σ] {held : σ → H} {lp t u : Relaxation σ} {c : ColumnRef} {r : RowRef}
variable {row : Row} {spec : ColumnSpec} {problem : Problem} {dive : Dive σ}
variable {E : LpError → Relaxation σ → Prop}

/-! ## Columns -/

theorem Respecified.column_self (h : Respecified c spec lp t)
    (hc : c.index < lp.matrix.columns.size) :
    t.matrix.column c = { lp.matrix.column c with spec } := by
  obtain ⟨b, hmatrix⟩ := h.matrix
  rw [hmatrix]
  exact ConstraintMatrix.column_modifyColumn_self hc _

theorem Respecified.column_of_ne (h : Respecified c spec lp t) {d : ColumnRef} (hd : c ≠ d) :
    t.matrix.column d = lp.matrix.column d := by
  obtain ⟨b, hmatrix⟩ := h.matrix
  rw [hmatrix]
  exact ConstraintMatrix.column_modifyColumn_of_ne hd _

/-- Nothing but columns differs, the queue, and what is known about the solution. -/
structure RowsKept (lp t : Relaxation σ) : Prop where
  nrColumns : t.matrix.columns.size = lp.matrix.columns.size
  origin : ∀ c, (t.matrix.column c).origin = (lp.matrix.column c).origin
  matrixRows : t.matrix.rows = lp.matrix.rows
  rows : t.rows = lp.rows
  dive : t.dive = lp.dive

instance : IsPreorder (Relaxation σ) RowsKept where
  refl _ := ⟨rfl, fun _ => rfl, rfl, rfl, rfl⟩
  trans _ _ _ h h' := ⟨h'.nrColumns.trans h.nrColumns, fun c => (h'.origin c).trans (h.origin c),
    h'.matrixRows.trans h.matrixRows, h'.rows.trans h.rows, h'.dive.trans h.dive⟩

theorem Respecified.rowsKept (h : Respecified c spec lp t) : RowsKept lp t := by
  obtain ⟨b, hmatrix⟩ := h.matrix
  refine ⟨?_, fun d => ?_, ?_, h.rows, h.dive⟩
  · rw [hmatrix]
    exact Array.size_modify
  · rw [hmatrix]
    refine ConstraintMatrix.column_modifyColumn_congr Column.origin lp.matrix c ?_ d
    exact fun _ => rfl
  · rw [hmatrix]
    rfl

/-- Set the objective and the bounds of a column to those of its variable. -/
def resetColumn (problem : Problem) (c : ColumnRef) : RelaxationM σ Unit := do
  let spec := (problem.get (← getColumn c).origin).spec
  changeObjective c spec.objective
  changeBound c .lower spec.bounds.lower
  changeBound c .upper spec.bounds.upper

/-- Afterwards the column is reset, and the others are as they were. -/
theorem ends_resetColumn (hc : c.index < lp.matrix.columns.size) :
    Ends (resetColumn problem c) lp
      (fun _ t => RowsKept lp t ∧ (t.matrix.column c).IsReset problem ∧
        ∀ d, c ≠ d → t.matrix.column d = lp.matrix.column d)
      fun _ t => RowsKept lp t := by
  rw [resetColumn, Ends.bind_iff, ends_getColumn, Ends.bind_iff]
  refine (ends_changeObjective c _).mono ?_ fun _ t (ht : t = lp) => ht ▸ refl t
  rintro _ t₁ ⟨h₁, hfinite⟩
  have hc₁ := hc.trans_eq h₁.rowsKept.nrColumns.symm
  rw [Ends.bind_iff]
  refine ((ends_changeBound c _ _).and (ends_changeBound_allowed c _ _)).mono ?_
    fun _ _ h => h.1 ▸ h₁.rowsKept
  rintro _ t₂ ⟨h₂, hlower⟩
  have hc₂ := hc₁.trans_eq h₂.rowsKept.nrColumns.symm
  refine ((ends_changeBound c _ _).and (ends_changeBound_allowed c _ _)).mono ?_
    fun _ _ h => h.1 ▸ IsTrans.trans _ _ _ h₁.rowsKept h₂.rowsKept
  rintro _ t₃ ⟨h₃, hupper⟩
  refine ⟨IsTrans.trans _ _ _ (IsTrans.trans _ _ _ h₁.rowsKept h₂.rowsKept) h₃.rowsKept, ?_,
    fun d hd => (h₃.column_of_ne hd).trans ((h₂.column_of_ne hd).trans (h₁.column_of_ne hd))⟩
  have hcolumn : t₃.matrix.column c = { lp.matrix.column c with
      spec := (problem.get (lp.matrix.column c).origin).spec } := by
    rw [h₃.column_self hc₂, h₂.column_self hc₁, h₁.column_self hc]
    rfl
  rw [hcolumn]
  exact ⟨rfl, hfinite, hlower, hupper⟩

/-- To reset a column that is reset does nothing. -/
theorem ends_resetColumn_again (h : (lp.matrix.column c).IsReset problem) :
    Ends (resetColumn problem c) lp (fun _ t => t = lp) E := by
  have hobjective : Ends (changeObjective c (lp.matrix.column c).spec.objective) lp
      (fun _ t => t = lp) E := by
    rw [changeObjective, if_neg (by simp [h.objective]), Ends.bind_iff, ends_getColumn,
      if_neg (not_not.mpr rfl), Ends.pure_iff]
  have hbound (side : Side) (hallows : side.allows ((lp.matrix.column c).spec.bounds.get side) =
      true) : Ends (changeBound c side ((lp.matrix.column c).spec.bounds.get side)) lp
        (fun _ t => t = lp) E := by
    rw [changeBound, if_neg (by simp [hallows]), Ends.bind_iff, ends_getColumn,
      if_neg (not_not.mpr rfl), Ends.pure_iff]
  rw [resetColumn, Ends.bind_iff, ends_getColumn, ← h.spec, Ends.bind_iff]
  refine hobjective.mono_ok ?_
  rintro _ _ rfl
  rw [Ends.bind_iff]
  refine (hbound .lower h.lower).mono_ok ?_
  rintro _ _ rfl
  exact hbound .upper h.upper

/-- Set the objective and the bounds of all columns to those of their variables. -/
def resetColumns (problem : Problem) : RelaxationM σ Unit := do
  for c in (← get).matrix.columnRefs do
    resetColumn problem c

theorem ends_resetColumns (problem : Problem) (lp : Relaxation σ) :
    Ends (resetColumns problem) lp
      (fun _ t => RowsKept lp t ∧
        ∀ {c}, c.index < t.matrix.columns.size → (t.matrix.column c).IsReset problem)
      fun _ t => RowsKept lp t := by
  rw [resetColumns, Ends.bind_iff, Ends.get_iff, Ends.bind_iff]
  refine (Ends.forIn_list (fun done t => RowsKept lp t ∧
    ∀ c ∈ done, (t.matrix.column c).IsReset problem) ⟨refl lp, by simp⟩ ?_).mono_ok ?_
  · rintro done c rest t hxs ⟨hkept, hdone⟩
    have hc : c.index < t.matrix.columns.size := by
      rw [hkept.nrColumns]
      exact mem_columnRefs.mp (hxs ▸ List.mem_append_cons_self)
    rw [Ends.bind_iff]
    refine (ends_resetColumn hc).mono ?_ fun _ _ h => IsTrans.trans _ _ _ hkept h
    rintro _ u ⟨hkept', hreset, hothers⟩
    refine ⟨rfl, IsTrans.trans _ _ _ hkept hkept', fun d hd => ?_⟩
    by_cases hcd : c = d
    · exact hcd ▸ hreset
    · rw [hothers d hcd]
      rcases List.mem_append.mp hd with hd | hd
      · exact hdone d hd
      · exact (hcd (List.mem_singleton.mp hd).symm).elim
  · rintro _ t ⟨hkept, hall⟩
    exact ⟨hkept, fun {c} hc => hall c (mem_columnRefs.mpr (hc.trans_eq hkept.nrColumns))⟩

theorem ends_resetColumns_again
    (h : ∀ {c}, c.index < lp.matrix.columns.size → (lp.matrix.column c).IsReset problem) :
    Ends (resetColumns problem) lp (fun _ t => t = lp) E := by
  rw [resetColumns, Ends.bind_iff, Ends.get_iff, Ends.bind_iff]
  refine Ends.forIn_keeps (· = lp) rfl ?_
  rintro c hc _ rfl
  rw [Ends.bind_iff]
  exact (ends_resetColumn_again (h (mem_columnRefs.mp hc))).mono_ok fun _ _ ht => ⟨rfl, ht⟩

/-! ## Sides -/

theorem ends_queueRow_exactly (hrow : lp.matrix.row? r = some row) :
    Ends (queueRow r) lp (fun _ t => ∃ synced changedRows,
      t = { lp with matrix := { lp.matrix with synced }, changedRows } ∧
        (changedRows = lp.changedRows ∨ changedRows = lp.changedRows.push r ∧
          row.solverPosition.isSome = true ∧ r ∉ lp.changedRows)) E := by
  rw [queueRow, Ends.bind_iff, ends_getRow hrow, Ends.ite_iff]
  refine ⟨fun hsome => ?_, fun _ => ⟨lp.matrix.synced, lp.changedRows, rfl, .inl rfl⟩⟩
  rw [Ends.bind_iff, Ends.modify_iff, desync, ends_modifyMatrix]
  split
  · exact ⟨false, _, rfl, .inl rfl⟩
  · next hnew => exact ⟨false, _, rfl, .inr ⟨rfl, hsome, hnew⟩⟩

/-- Between dives, a side is changed, and the row is queued if the solver has it. -/
theorem ends_changeSide_exactly (hrow : lp.matrix.row? r = some row) (hdive : lp.dive = none)
    (side : Side) (value : Extended) :
    Ends (changeSide r side value) lp
      (fun _ t => side.allows value = true ∧ ∃ synced changedRows flags status,
        t = { lp with
          matrix := { lp.matrix.modifyRow r (Row.withSide side value) with synced }
          changedRows, flags, status } ∧
        (changedRows = lp.changedRows ∨ changedRows = lp.changedRows.push r ∧
          row.solverPosition.isSome = true ∧ r ∉ lp.changedRows))
      fun _ t => t = lp ∧ side.allows value = false := by
  rw [changeSide, Ends.ite_iff]
  refine ⟨fun hrefused => ⟨rfl, by simpa using hrefused⟩, fun hallows => ?_⟩
  have hallows : side.allows value = true := by simpa using hallows
  rw [Ends.bind_iff, ends_getRow hrow, Ends.ite_iff]
  refine ⟨fun _ => ?_, fun hsame => ⟨hallows, lp.matrix.synced, lp.changedRows, lp.flags,
    lp.status, ?_, .inl rfl⟩⟩
  · have hrow' : (lp.matrix.modifyRow r (Row.withSide side value)).row? r =
        some (row.withSide side value) := by
      rw [ConstraintMatrix.row?_modifyRow, if_pos rfl, hrow, Option.map_some]
    have hlog : Ends (logSide r side (row.spec.sides.get side))
        { lp with matrix := lp.matrix.modifyRow r (Row.withSide side value) }
        (fun _ t => t = { lp with matrix := lp.matrix.modifyRow r (Row.withSide side value) })
        fun _ t => t = lp ∧ side.allows value = false := by
      rw [logSide, Ends.modify_iff, hdive, Option.map_none, ← hdive]
    rw [Ends.bind_iff, ends_updateRow hrow, Ends.bind_iff]
    refine hlog.mono_ok ?_
    rintro _ _ rfl
    rw [Ends.bind_iff]
    refine (ends_queueRow_exactly hrow').mono_ok ?_
    rintro _ _ ⟨synced, changedRows, rfl, hqueue⟩
    rw [Ends.ite_iff]
    exact ⟨fun _ => ⟨hallows, synced, changedRows, _, _, rfl, hqueue⟩,
      fun _ => ⟨hallows, synced, changedRows, _, _, rfl, hqueue⟩⟩
  · have hself : lp.matrix.modifyRow r (Row.withSide side value) = lp.matrix := by
      refine ConstraintMatrix.modifyRow_eq_self fun row' hrow' => ?_
      obtain rfl := Option.some.inj (hrow'.symm.trans hrow)
      rw [Row.withSide, ← not_not.mp hsame, Interval.set_get]
    rw [hself]

/-- Replace sides of the rows that still exist. -/
def replaySides (log : List (RowRef × Side × Extended)) : RelaxationM σ Unit := do
  for (r, side, value) in log do
    if ((← get).matrix.row? r).isSome then changeSide r side value

/-- Sides were replaced, and rows were queued that the solver has. -/
structure Replayed (log : List (RowRef × Side × Extended)) (lp t : Relaxation σ) : Prop where
  eq : ∃ synced changedRows flags status, t = { lp with
    matrix := { lp.matrix.withSides log with synced }, changedRows, flags, status }
  queue : ∃ extra, t.changedRows = lp.changedRows ++ extra ∧ ∀ r ∈ extra,
    r ∉ lp.changedRows ∧ ∃ row, lp.matrix.row? r = some row ∧ row.solverPosition.isSome = true
  allowed : ∀ x ∈ log, (lp.matrix.row? x.1).isSome = true → x.2.1.allows x.2.2 = true

theorem replayed_nil (lp : Relaxation σ) : Replayed [] lp lp where
  eq := ⟨_, _, _, _, rfl⟩
  queue := ⟨#[], Array.append_empty.symm, fun r hr => (Array.not_mem_empty r hr).elim⟩
  allowed := by simp

/-- A row that does not exist any more is skipped. -/
theorem Replayed.skip {log : List (RowRef × Side × Extended)} (h : Replayed log lp t)
    {x : RowRef × Side × Extended} (hgone : lp.matrix.row? x.1 = none) :
    Replayed (log ++ [x]) lp t := by
  have hself : lp.matrix.withSides (log ++ [x]) = lp.matrix.withSides log := by
    rw [ConstraintMatrix.withSides_concat]
    refine ConstraintMatrix.modifyRow_eq_self fun row hrow => ?_
    rw [ConstraintMatrix.row?_withSides, hgone] at hrow
    cases hrow
  refine ⟨by rw [hself]; exact h.eq, h.queue, fun y hy hlive => ?_⟩
  rcases List.mem_append.mp hy with hy | hy
  · exact h.allowed y hy hlive
  · rw [List.mem_singleton.mp hy, hgone] at hlive
    cases hlive

theorem ends_replaySides (hdive : lp.dive = none) (log : List (RowRef × Side × Extended)) :
    Ends (replaySides log) lp (fun _ t => Replayed log lp t) fun _ t =>
      t.dive = none ∧ ∃ x ∈ log, (lp.matrix.row? x.1).isSome = true ∧ x.2.1.allows x.2.2 = false := by
  rw [replaySides, Ends.bind_iff]
  refine Ends.forIn_list (fun done t => Replayed done lp t) (replayed_nil lp) ?_
  intro done x rest t hxs ht
  obtain ⟨⟨synced, changedRows, flags, status, heq⟩, ⟨extra, hextra, hextras⟩, hallowed⟩ := ht
  have hrow : t.matrix.row? x.1 = (lp.matrix.row? x.1).map fun row =>
      { row with spec := { row.spec with sides := row.spec.sides.replay x.1 done } } := by
    rw [heq]
    exact lp.matrix.row?_withSides done x.1
  rw [Ends.bind_iff, Ends.get_iff, Ends.ite_iff]
  refine ⟨fun hsome => ?_, fun hnone => ⟨rfl, ?_⟩⟩
  · cases hlive : lp.matrix.row? x.1 with
    | none => rw [hrow, hlive] at hsome; cases hsome
    | some row =>
      rw [hlive, Option.map_some] at hrow
      have hdive' : t.dive = none := by rw [heq]; exact hdive
      rw [Ends.bind_iff]
      refine (ends_changeSide_exactly hrow hdive' x.2.1 x.2.2).mono ?_ ?_
      · rintro _ u ⟨hallows, synced', changedRows', flags', status', hu, hqueue⟩
        refine ⟨rfl, ?_, ?_, ?_⟩
        · rw [ConstraintMatrix.withSides_concat, hu, heq]
          exact ⟨synced', changedRows', flags', status', rfl⟩
        · rcases hqueue with hqueue | ⟨hqueue, hposition, hnew⟩
          · exact ⟨extra, by rw [hu, ← hextra]; exact hqueue, hextras⟩
          · refine ⟨extra.push x.1, by rw [hu, Array.append_push, ← hextra]; exact hqueue, ?_⟩
            intro r hr
            rcases Array.mem_push.mp hr with hr | rfl
            · exact hextras r hr
            · exact ⟨fun hmem => hnew (by rw [hextra]; exact Array.mem_append_left _ hmem), row,
                hlive, hposition⟩
        · intro y hy hylive
          rcases List.mem_append.mp hy with hy | hy
          · exact hallowed y hy hylive
          · rw [List.mem_singleton.mp hy]
            exact hallows
      · rintro _ u ⟨rfl, hrefused⟩
        exact ⟨hdive', x, by simp [hxs], by rw [hlive]; rfl, hrefused⟩
  · have hgone : lp.matrix.row? x.1 = none := by
      rw [hrow, Option.isSome_map] at hnone
      exact Option.not_isSome_iff_eq_none.mp hnone
    exact Replayed.skip
      ⟨⟨synced, changedRows, flags, status, heq⟩, ⟨extra, hextra, hextras⟩, hallowed⟩ hgone

/-- Where all rows have the sides that they would get, replacing them changes nothing that counts. -/
theorem Replayed.alike {log : List (RowRef × Side × Extended)} (h : Replayed log lp t)
    (hqueued : lp.Queued)
    (hsides : ∀ {r row}, lp.matrix.row? r = some row →
      row.spec.sides.replay r log = row.spec.sides) : Alike held lp t := by
  obtain ⟨⟨synced, changedRows, flags, status, heq⟩, ⟨extra, hextra, hextras⟩, -⟩ := h
  rw [ConstraintMatrix.withSides_eq_self hsides] at heq
  have hrow (r : RowRef) : t.matrix.row? r = lp.matrix.row? r := by
    rw [heq]
    rfl
  have hnews : extra.filter (fun r => (lp.matrix.row? r).any Row.hasNews) = #[] := by
    rw [Array.filter_eq_empty_iff]
    intro r hr
    obtain ⟨hnew, row, hrow, hposition⟩ := hextras r hr
    rw [hrow, Option.any_some, Bool.not_eq_true]
    exact Row.hasNews_eq_false.mpr (hqueued.row hnew hrow hposition)
  refine ⟨⟨lp.solver, synced, changedRows, flags, status, heq⟩, by rw [heq]; rfl, ?_⟩
  have happend (p : RowRef → Bool) : t.changedRows.filter p =
      lp.changedRows.filter p ++ extra.filter p := by
    rw [hextra]
    exact Array.filter_append Array.size_append
  rw [pendingRows, happend]
  simp only [hrow, hnews, Array.append_empty]
  rfl

/-! ## All edits -/

/-- The replaced sides, the last one first. -/
def undoLog (dive : Dive σ) : List (RowRef × Side × Extended) := dive.sideLog.toList.reverse

theorem undoEdits_eq (problem : Problem) (dive : Dive σ) :
    (undoEdits problem dive : RelaxationM σ Unit) = (do
      resetColumns problem
      replaySides (undoLog dive)
      shrinkRows dive.nrRows) := by
  simp only [undoEdits, resetColumns, resetColumn, replaySides, undoLog, bind_assoc, pure_bind]

/-- The edits of a dive are undone. -/
structure Undone (problem : Problem) (dive : Dive σ) (lp : Relaxation σ) : Prop where
  matrix : lp.matrix.Undone problem (undoLog dive)
  rows : lp.rows.size ≤ dive.nrRows

/-- What undoing relies on: what the solver has to be told is noted, and there is no dive. -/
def Surfaced (lp : Relaxation σ) : Prop := lp.Tracked ∧ lp.dive = none

/-- Nothing differs but the solvers, which hold the same. -/
def SameButSolver (held : σ → H) (lp t : Relaxation σ) : Prop :=
  ∃ s, HoldSame held lp.solver s ∧ t = withSolver s lp

instance : IsPreorder (Relaxation σ) (SameButSolver held) where
  refl lp := ⟨lp.solver, rfl, rfl⟩
  trans _ _ _ h h' := by
    obtain ⟨s, hs, rfl⟩ := h
    obtain ⟨s', hs', rfl⟩ := h'
    exact ⟨s', IsTrans.trans _ s _ hs hs', rfl⟩

theorem SameButSolver.alike (h : SameButSolver held lp t) : Alike held lp t := by
  obtain ⟨s, hs, rfl⟩ := h
  exact alike_of_solver hs lp.flags lp.status

theorem ends_shrinkRows_none {size : Nat} (h : lp.rows.size ≤ size) :
    Ends (shrinkRows size) lp (fun _ t => t = lp) E := by
  rw [shrinkRows, Ends.bind_iff, Ends.get_iff, if_neg (Nat.not_lt.mpr h), Ends.pure_iff]

theorem Replayed.undone {log : List (RowRef × Side × Extended)} (h : Replayed log lp t)
    (hreset : ∀ {c}, c.index < lp.matrix.columns.size → (lp.matrix.column c).IsReset problem) :
    t.matrix.Undone problem log := by
  obtain ⟨⟨synced, changedRows, flags, status, rfl⟩, -, hallowed⟩ := h
  have hrow (r : RowRef) := lp.matrix.row?_withSides log r
  refine ⟨hreset, fun {r row} hr => ?_, fun x hx hsome => hallowed x hx ?_⟩
  · obtain ⟨row, -, rfl⟩ := Option.map_eq_some_iff.mp ((hrow r).symm.trans hr)
    exact Interval.replay_replay row.spec.sides r log
  · rw [← hsome, ← Option.isSome_map]
    exact (congrArg Option.isSome (hrow x.1)).symm

/-- Afterwards the edits are undone. -/
theorem ends_undoEdits (problem : Problem) (dive : Dive σ) (hdive : lp.dive = none) :
    Ends (undoEdits problem dive) lp
      (fun _ t => t.dive = none ∧ Undone problem dive t) fun _ t => t.dive = none := by
  rw [undoEdits_eq, Ends.bind_iff]
  refine (ends_resetColumns problem lp).mono ?_ fun _ _ h => h.dive.trans hdive
  rintro _ t₁ ⟨h₁, hreset⟩
  have hdive₁ := h₁.dive.trans hdive
  rw [Ends.bind_iff]
  refine (ends_replaySides hdive₁ _).mono ?_ fun _ _ h => h.1
  intro _ t₂ h₂
  have hdive₂ : t₂.dive = none := by
    obtain ⟨_, _, _, _, rfl⟩ := h₂.eq
    exact hdive₁
  have hshrink : Ends (shrinkRows dive.nrRows) t₂
      (fun _ u => Steady Whatever (.moves Set.univ) _ u) fun _ _ => _ :=
    ends_shrinkRows_steady fun r _ => Set.mem_univ r
  refine hshrink.mono ?_ ?_
  · intro _ t₃ h₃
    refine ⟨h₃.dive.trans hdive₂, (h₂.undone hreset).of_sameSpecs h₃.matrix.sameSpecs
      h₃.matrix.size fun {r} hsome => ?_, ?_⟩
    · obtain ⟨row', hrow'⟩ := Option.isSome_iff_exists.mp hsome
      obtain ⟨row, hrow, -⟩ := h₃.matrix.row hrow'
      rw [show t₂.matrix.row? r = some row from hrow]
      rfl
    · rw [h₃.rows, Array.size_extract]
      omega
  · rintro _ t₃ ⟨rows, h₃⟩
    exact h₃.dive.trans hdive₂

/-- To undo the edits once more changes nothing that counts. -/
theorem ends_undoEdits_again (hlp : lp.Surfaced) (h : Undone problem dive lp) :
    Ends (undoEdits problem dive) lp (fun _ t => Alike held lp t) fun _ _ => False := by
  rw [undoEdits_eq, Ends.bind_iff]
  refine (ends_resetColumns_again h.matrix.column).mono_ok ?_
  rintro _ _ rfl
  rw [Ends.bind_iff]
  refine (ends_replaySides hlp.2 _).mono ?_ ?_
  · intro _ t ht
    have halike : Alike held _ t := ht.alike hlp.1.aware.queued h.matrix.sides
    have hrows := h.rows
    refine (ends_shrinkRows_none ?_).mono_ok ?_
    · obtain ⟨_, _, _, _, rfl⟩ := ht.eq
      exact hrows
    · rintro _ _ rfl
      exact halike
  · rintro _ t ⟨-, x, hx, hsome, hrefused⟩
    cases (h.matrix.allowed x hx hsome).symm.trans hrefused

theorem Alike.undone (h : Alike held lp t) (hlp : Undone problem dive lp) :
    Undone problem dive t := by
  obtain ⟨⟨_, _, _, _, _, rfl⟩, -⟩ := h
  exact ⟨⟨hlp.matrix.column, hlp.matrix.sides, hlp.matrix.allowed⟩, hlp.rows⟩

/-- What ignores the solver leaves it alone. -/
theorem solver_of_commutes {α : Type} {x : RelaxationM σ α} {a : α}
    (hx : Commutes (withSolver lp.solver) x) (hrun : x.run.run lp = (.ok a, t)) :
    t.solver = lp.solver := by
  have hself : x.run.run lp = (.ok a, withSolver lp.solver t) := hx.of_ok hrun
  rw [hrun] at hself
  exact congrArg (fun y => y.2.solver) hself

theorem phase_undoEdits (problem : Problem) (dive : Dive σ) :
    Phase OfSolver (SameButSolver held) (Alike held) Surfaced (Undone problem dive)
      (undoEdits problem dive) where
  keeps hlp := ((ends_undoEdits problem dive hlp.2).and
    (hlp.1.ends (tracks_undoEdits problem dive))).mono
      (fun _ _ ht => ⟨⟨ht.2, ht.1.1⟩, ht.1.2⟩) fun _ _ ht => ⟨ht.2, ht.1⟩
  idle hlp hdone := ends_undoEdits_again hlp hdone
  respects := Alike.undone
  resumes := by
    refine .of_restart ?_
    rintro lp _ lp' - - ⟨s, hs, rfl⟩ hrun
    have hsolver := solver_of_commutes (commutes_undoEdits problem dive) hrun
    rw [Ends, (commutes_undoEdits problem dive).of_ok hrun]
    exact SameButSolver.alike ⟨s, by rw [hsolver]; exact hs, rfl⟩

end Relaxation

end CertifiedLp
