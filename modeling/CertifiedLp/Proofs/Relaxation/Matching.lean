import Mathlib
import CertifiedLp.Proofs.Relaxation.Tracking
import CertifiedLp.Proofs.Relaxation.Silence

/-!
# Solvers that match the active linear program

A solver *matches* when it has exactly the active lines, was told what they say, and no line is
marked. After it was brought up to date it matches, and it matches again after a detour that ends where
it began, whatever lines left and came back, as long as no coefficient was edited. The solver does not
have to be told anything then.
-/

namespace CertifiedLp

/-- Lists that agree to the end are the same. -/
theorem AgreeBelow.eq {κ : Type} {n : Nat} {xs ys : Array κ} (h : AgreeBelow n xs ys)
    (hxs : n = xs.size) (hys : n = ys.size) : xs = ys := by
  refine Array.ext_getElem? fun i => ?_
  rcases Nat.lt_or_ge i n with hi | hi
  · exact h.agree i hi
  · rw [Array.getElem?_eq_none (hxs.symm.trans_le hi), Array.getElem?_eq_none (hys.symm.trans_le hi)]

/-- A test that succeeds everywhere is counted to the end. -/
theorem le_add_countWhile {first stop : Nat} {test : Nat → Bool}
    (h : ∀ i < stop, test i = true) : stop ≤ first + Relaxation.countWhile first stop test := by
  have hall : Relaxation.countWhile first stop test = stop - first := by
    rw [Relaxation.countWhile, List.takeWhile_eq_self_iff.mpr, List.length_range']
    intro i hi
    obtain ⟨hle, hlt⟩ := List.mem_range'_1.mp hi
    exact h i (by omega)
  omega

/-- Lines are created, enter and leave the linear program, and say something else, but no coefficient is
edited, and the solver is neither configured nor brought up to date. -/
def Action.isDetour (a : Action) : Bool := !a.isEdit && !a.isSync && !a.isConfiguration

namespace Relaxation

variable {σ : Type} [Solver σ] {S : σ → σ → Prop} {lp t : Relaxation σ} {c : ColumnRef}
variable {r : RowRef} {row : Row} {a : Action} {start : Relaxation σ} {solver : σ}
variable {settings : Settings} {before actions : List Action} {E : LpError → Relaxation σ → Prop}

/-! ## Matching -/

/-- The solver has the active lines, was told what they say, and no line is marked. -/
structure Matched (lp : Relaxation σ) : Prop where
  columns : lp.matrix.solverColumns = lp.columns
  rows : lp.matrix.solverRows = lp.rows
  live : ∀ r ∈ lp.rows, (lp.matrix.row? r).isSome = true
  columnsUnmarked : lp.matrix.ColumnsUnmarked
  rowsUnmarked : lp.matrix.RowsUnmarked
  column : ∀ c, (lp.matrix.column c).IsKnown
  row : ∀ {r row}, lp.matrix.row? r = some row → row.IsKnown

/-- A relaxation without anything left to tell matches. -/
theorem Tracked.matched (h : lp.Tracked) (hsynced : lp.matrix.synced = true) : lp.Matched where
  columns := by
    have hinStep := h.aware.inStep hsynced
    exact (h.coherent.columnsAgree.eq hinStep.firstChangedColumn
      (hinStep.firstChangedColumn.trans hinStep.columns.symm)).symm
  rows := by
    have hinStep := h.aware.inStep hsynced
    exact (h.coherent.rowsAgree.eq hinStep.firstChangedRow
      (hinStep.firstChangedRow.trans hinStep.rows.symm)).symm
  live r hr := by
    obtain ⟨row, hrow, -⟩ := h.coherent.exists_row_of_mem hr
    rw [hrow, Option.isSome_some]
  columnsUnmarked := h.aware.watched.columnsUnmarked hsynced
  rowsUnmarked := h.aware.watched.rowsUnmarked hsynced
  column c := h.aware.queued.column (by simp [(h.aware.inStep hsynced).changedColumns])
  row hrow := h.aware.queued.row (by simp [(h.aware.inStep hsynced).changedRows]) hrow

/-- A solver that was told nothing matches when the active lines are again what they were. -/
theorem Matched.of_silent (h : lp.Matched) (hlp : lp.Coherent) (ht : t.Coherent)
    (hsilent : Silent S False lp t) (hcolumns : t.columns = lp.columns) (hrows : t.rows = lp.rows)
    (hcolumn : ∀ c ∈ lp.columns, (t.matrix.column c).spec = (lp.matrix.column c).spec)
    (hrow : ∀ r ∈ lp.rows, (t.matrix.row? r).map (·.spec) = (lp.matrix.row? r).map (·.spec)) :
    t.Matched where
  columns := hsilent.matrix.solverColumns.trans (h.columns.trans hcolumns.symm)
  rows := hsilent.matrix.solverRows.trans (h.rows.trans hrows.symm)
  live r hr := by
    obtain ⟨row, hrow, -⟩ := ht.exists_row_of_mem hr
    rw [hrow, Option.isSome_some]
  columnsUnmarked c := Bool.eq_false_iff.mpr fun hmark => by
    have hnone := hsilent.matrix.marks.resolve_left id
    exact nomatch (h.columnsUnmarked c).symm.trans (hnone.column hmark)
  rowsUnmarked hrow' := Bool.eq_false_iff.mpr fun hmark => by
    have hnone := hsilent.matrix.marks.resolve_left id
    obtain ⟨row, hrow, hmark⟩ := hnone.row hrow' hmark
    exact nomatch (h.rowsUnmarked hrow).symm.trans hmark
  column c hsome := by
    obtain ⟨hposition, hsent, -⟩ := hsilent.matrix.column hsome
    rw [hposition] at hsome
    obtain ⟨i, hi⟩ := Option.isSome_iff_exists.mp hsome
    have hmem : c ∈ lp.columns :=
      h.columns ▸ Array.mem_of_getElem? ((hlp.solverPosition_column c i).mp hi)
    rw [hcolumn c hmem, h.column c hsome, hsent]
  row {r row'} hrow' hsome := by
    obtain ⟨row, hrow₀, hposition, hsent, -⟩ := hsilent.matrix.row hrow' hsome
    rw [hposition] at hsome
    obtain ⟨j, hj⟩ := Option.isSome_iff_exists.mp hsome
    have hmem : r ∈ lp.rows :=
      h.rows ▸ Array.mem_of_getElem? ((hlp.solverPosition_row hrow₀ j).mp hj)
    have hspec := hrow r hmem
    rw [hrow', hrow₀, Option.map_some, Option.map_some, Option.some_inj] at hspec
    rw [hspec, h.row hrow₀ hsome, hsent]

/-! ## Nothing to tell -/

/-- A solver that matches has no column that it should not have. -/
theorem Matched.not_hasStaleColumns (h : lp.Matched) : ¬ lp.HasStaleColumns := by
  have hsize : lp.matrix.solverColumns.size ≤ min lp.matrix.solverColumns.size lp.columns.size := by
    rw [h.columns, Nat.min_self]
  rw [HasStaleColumns, Nat.not_lt, firstStaleColumn]
  refine hsize.trans (le_add_countWhile fun i hi => ?_)
  have hlt : i < lp.columns.size := hi.trans_le (Nat.min_le_right _ _)
  simp only [h.columns, Array.getElem?_eq_getElem hlt, BEq.rfl, Bool.true_and]
  rw [h.columnsUnmarked, Bool.not_false]

/-- A solver that matches has no row that it should not have. -/
theorem Matched.not_hasStaleRows (h : lp.Matched) : ¬ lp.HasStaleRows := by
  have hsize : lp.matrix.solverRows.size ≤ min lp.matrix.solverRows.size lp.rows.size := by
    rw [h.rows, Nat.min_self]
  rw [HasStaleRows, Nat.not_lt, firstStaleRow]
  refine hsize.trans (le_add_countWhile fun i hi => ?_)
  have hlt : i < lp.rows.size := hi.trans_le (Nat.min_le_right _ _)
  obtain ⟨row, hrow⟩ := Option.isSome_iff_exists.mp (h.live _ (Array.getElem_mem hlt))
  simp only [h.rows, Array.getElem?_eq_getElem hlt, BEq.rfl, Bool.true_and, hrow, Option.any_some]
  rw [h.rowsUnmarked hrow, Bool.not_false]

/-- No queued column differs from what the solver was told. -/
theorem Matched.spec_eq_of_mem_queuedColumns (h : lp.Matched) {x : Nat × Column}
    (hx : x ∈ lp.queuedColumns) : x.2.spec = x.2.sent := by
  obtain ⟨c, -, hposition, hcolumn⟩ := mem_queuedColumns.mp hx
  rw [← hcolumn]
  exact h.column c (by rw [hposition, Option.isSome_some])

theorem Matched.spec_eq_of_mem_queuedRows (h : lp.Matched) {x : Nat × Row}
    (hx : x ∈ lp.queuedRows) : x.2.spec = x.2.sent := by
  obtain ⟨r, -, hrow, hposition⟩ := mem_queuedRows.mp hx
  exact h.row hrow (by rw [hposition, Option.isSome_some])

theorem Matched.changedCosts (h : lp.Matched) : lp.changedCosts = #[] :=
  Array.filter_eq_empty_iff.mpr fun x hx => by simp [h.spec_eq_of_mem_queuedColumns hx]

theorem Matched.changedBounds (h : lp.Matched) : lp.changedBounds = #[] :=
  Array.filter_eq_empty_iff.mpr fun x hx => by simp [h.spec_eq_of_mem_queuedColumns hx]

theorem Matched.changedSides (h : lp.Matched) : lp.changedSides = #[] :=
  Array.filter_eq_empty_iff.mpr fun x hx => by simp [h.spec_eq_of_mem_queuedRows hx]

/-- Nothing differs but what is noted for the solver. -/
def Renoted (lp t : Relaxation σ) : Prop := ∃ m changedColumns changedRows,
  t = { lp with matrix := m, changedColumns, changedRows }

instance : IsPreorder (Relaxation σ) Renoted where
  refl lp := ⟨lp.matrix, lp.changedColumns, lp.changedRows, rfl⟩
  trans _ _ _ := by
    rintro ⟨m, columns, rows, rfl⟩ ⟨m', columns', rows', rfl⟩
    exact ⟨m', columns', rows', rfl⟩

theorem Matched.ends_syncDeletedColumns (h : lp.Matched) :
    Ends syncDeletedColumns lp (fun _ t => t.Matched ∧ Renoted lp t) E := by
  rw [syncDeletedColumns, Ends.bind_iff, Ends.get_iff]
  refine Ends.ite_iff.mpr ⟨fun hstale => (h.not_hasStaleColumns hstale).elim, fun _ => ?_⟩
  exact ⟨⟨h.columns, h.rows, h.live, h.columnsUnmarked, h.rowsUnmarked, h.column, h.row⟩,
    _, _, _, rfl⟩

theorem Matched.ends_syncDeletedRows (h : lp.Matched) :
    Ends syncDeletedRows lp (fun _ t => t.Matched ∧ Renoted lp t) E := by
  rw [syncDeletedRows, Ends.bind_iff, Ends.get_iff]
  refine Ends.ite_iff.mpr ⟨fun hstale => (h.not_hasStaleRows hstale).elim, fun _ => ?_⟩
  exact ⟨⟨h.columns, h.rows, h.live, h.columnsUnmarked, h.rowsUnmarked, h.column, h.row⟩,
    _, _, _, rfl⟩

theorem Matched.noteColumns (h : lp.Matched) : lp.noteColumns.Matched where
  columns := h.columns
  rows := h.rows
  live := h.live
  columnsUnmarked := h.columnsUnmarked.modifyColumns fun _ h => h
  rowsUnmarked := h.rowsUnmarked
  column c := ConstraintMatrix.modifyColumns_keeps (P := Column.IsKnown) (fun _ _ _ => rfl)
    (h.column c)
  row := h.row

theorem Matched.noteRows (h : lp.Matched) : lp.noteRows.Matched where
  columns := h.columns
  rows := h.rows
  live r hr := (ConstraintMatrix.isSome_row?_modifyRows lp.matrix _ _ r).trans (h.live r hr)
  columnsUnmarked := h.columnsUnmarked
  rowsUnmarked := ConstraintMatrix.RowsUnmarked.modifyRows h.rowsUnmarked (f := noteRow)
    fun _ h => h
  column := h.column
  row hrow := ConstraintMatrix.modifyRows_keeps (P := Row.IsKnown) (f := noteRow)
    (fun _ _ _ => rfl) (fun _ hrow => h.row hrow) hrow

theorem Matched.ends_syncChangedColumns (h : lp.Matched) :
    Ends syncChangedColumns lp (fun _ t => t.Matched ∧ Renoted lp t) E := by
  have hcosts : ¬ (!lp.changedCosts.isEmpty) = true := by simp [h.changedCosts]
  have hbounds : ¬ (!lp.changedBounds.isEmpty) = true := by simp [h.changedBounds]
  rw [syncChangedColumns, Ends.bind_iff, Ends.get_iff]
  refine Ends.ite_iff.mpr ⟨fun h => (hcosts h).elim, fun _ => ?_⟩
  refine Ends.ite_iff.mpr ⟨fun h => (hbounds h).elim, fun _ => ?_⟩
  refine (ends_noteColumns lp lp.changedColumns).mono_ok ?_
  rintro _ t rfl
  exact ⟨h.noteColumns, _, _, _, rfl⟩

theorem Matched.ends_syncChangedRows (h : lp.Matched) :
    Ends syncChangedRows lp (fun _ t => t.Matched ∧ Renoted lp t) E := by
  have hsides : ¬ (!lp.changedSides.isEmpty) = true := by simp [h.changedSides]
  rw [syncChangedRows, Ends.bind_iff, Ends.get_iff]
  refine Ends.ite_iff.mpr ⟨fun h => (hsides h).elim, fun _ => ?_⟩
  refine (ends_noteRows lp lp.changedRows).mono_ok ?_
  rintro _ t rfl
  exact ⟨h.noteRows, _, _, _, rfl⟩

/-- A solver that matches is not told anything, and there is nothing left to tell it. -/
theorem Matched.ends_sync (h : lp.Matched) :
    Ends sync lp (fun _ t => t.matrix.synced = true ∧ Renoted lp t) E := by
  rw [sync, Ends.bind_iff, Ends.get_iff, Ends.ite_iff]
  refine ⟨fun _ => ?_, fun hsynced => ⟨by simpa using hsynced, refl lp⟩⟩
  rw [Ends.bind_iff]
  refine h.ends_syncDeletedColumns.mono_ok fun _ t₁ ht₁ => ?_
  obtain ⟨h₁, hr₁⟩ := ht₁
  rw [Ends.bind_iff]
  refine h₁.ends_syncDeletedRows.mono_ok fun _ t₂ ht₂ => ?_
  obtain ⟨h₂, hr₂⟩ := ht₂
  rw [Ends.bind_iff]
  refine h₂.ends_syncChangedColumns.mono_ok fun _ t₃ ht₃ => ?_
  obtain ⟨h₃, hr₃⟩ := ht₃
  rw [Ends.bind_iff]
  refine h₃.ends_syncChangedRows.mono_ok fun _ t₄ ht₄ => ?_
  obtain ⟨h₄, hr₄⟩ := ht₄
  have hrenoted : Renoted lp t₄ :=
    IsTrans.trans _ _ _ (IsTrans.trans _ _ _ (IsTrans.trans _ _ _ hr₁ hr₂) hr₃) hr₄
  rw [Ends.bind_iff]
  refine (ends_syncAddedColumns_none (congrArg Array.size h₄.columns)).mono_ok ?_
  rintro _ _ rfl
  rw [Ends.bind_iff]
  refine (ends_syncAddedRows_none (congrArg Array.size h₄.rows)).mono_ok ?_
  rintro _ _ rfl
  rw [ends_modifyMatrix]
  exact ⟨rfl, IsTrans.trans _ _ _ hrenoted ⟨_, _, _, rfl⟩⟩

/-! ## Detours -/

/-- A step of a detour tells the solver nothing and marks no line. -/
theorem Coherent.silent_detour (hlp : lp.Coherent) (ha : lp.Permits a) (hdetour : a.isDetour = true) :
    Silent Eq False lp (lp.after (Relaxation.perform a)) := by
  simp only [Action.isDetour, Bool.and_eq_true, Bool.not_eq_true'] at hdetour
  obtain ⟨⟨hedit, hsync⟩, hconfiguration⟩ := hdetour
  exact (hlp.ends_silent ha hsync (fun h => nomatch hedit.symm.trans h)
    fun h => nomatch hconfiguration.symm.trans h).state

/-- A detour tells the solver nothing and marks no line. -/
theorem Coherent.silent_performAll (hlp : lp.Coherent) (hactions : Throughout Permits lp actions)
    (hdetour : ∀ a ∈ actions, a.isDetour = true) :
    Silent Eq False lp (lp.performAll actions) := by
  induction actions generalizing lp with
  | nil => exact refl lp
  | cons a rest ih =>
    have hstep := hlp.silent_detour hactions.1 (hdetour a List.mem_cons_self)
    have hrest := ih (hlp.perform hactions.1) hactions.2 fun b hb =>
      hdetour b (List.mem_cons_of_mem a hb)
    exact IsTrans.trans _ _ _ hstep hrest

/-- Bringing a synced relaxation up to date again and again changes nothing. -/
theorem performAll_sync_of_synced (hsynced : lp.matrix.synced = true) (n : Nat) :
    lp.performAll (List.replicate n .sync) = lp := by
  have hsync : lp.after sync = lp := by
    have hends : Ends sync lp (fun _ t => t = lp) fun _ t => t = lp := by
      rw [sync, Ends.bind_iff, Ends.get_iff, Ends.ite_iff]
      exact ⟨fun h => by simp [hsynced] at h, fun _ => rfl⟩
    exact hends.state
  induction n with
  | zero => rfl
  | succ n ih =>
    calc lp.performAll (List.replicate (n + 1) .sync)
      _ = (lp.after sync).performAll (List.replicate n .sync) := rfl
      _ = lp := by rw [hsync, ih]

/-- After a detour that ends where it began, bringing the solver up to date is free. The solver is what it
was before the detour, also if it is one that counts the calls that change it. What is known of the last
solution is left alone, nothing is left to tell, and to do it again and again changes nothing. -/
theorem sync_after_detour (hcreate : create solver settings = .ok start)
    (hbefore : Throughout Permits start before) (hlp : start.performAll before = lp)
    (hsynced : lp.matrix.synced = true) (hpermits : Throughout Permits lp actions)
    (hdetour : ∀ a ∈ actions, a.isDetour = true) (ht : lp.performAll actions = t)
    (hcolumns : t.columns = lp.columns) (hrows : t.rows = lp.rows)
    (hcolumn : ∀ c ∈ lp.columns, (t.matrix.column c).spec = (lp.matrix.column c).spec)
    (hrow : ∀ r ∈ lp.rows, (t.matrix.row? r).map (·.spec) = (lp.matrix.row? r).map (·.spec)) :
    ∃ u, sync.run.run t = (.ok (), u) ∧ u.solver = lp.solver ∧ u.flags = t.flags ∧
      u.status = t.status ∧ u.matrix.synced = true ∧
        ∀ n, u.performAll (List.replicate n .sync) = u := by
  have htracked : lp.Tracked := hlp ▸ (tracked_create hcreate).performAll hbefore
  have hsilent : Silent Eq False lp t := ht ▸ htracked.coherent.silent_performAll hpermits hdetour
  have hcoherent : t.Coherent := ht ▸ htracked.coherent.performAll hpermits
  have hmatched := (htracked.matched hsynced).of_silent htracked.coherent hcoherent hsilent hcolumns
    hrows hcolumn hrow
  obtain ⟨⟨⟩, u, hrun, hsynced', m, changedColumns, changedRows, hu⟩ := hmatched.ends_sync.exists_ok
  have hsolver : u.solver = lp.solver := (congrArg (·.solver) hu).trans hsilent.solver.symm
  exact ⟨u, hrun, hsolver, congrArg (·.flags) hu, congrArg (·.status) hu, hsynced',
    performAll_sync_of_synced hsynced'⟩

/-- The column and the row leave and come back in the other order, and bounds, sides and the constant
change and change back. -/
def returningActions : List Action := [
  .shrinkColumns 0, .changeBound ⟨0⟩ .upper 7, .shrinkRows 0, .changeSide ⟨0⟩ .upper 5,
  .addRow ⟨0⟩, .changeConstant ⟨0⟩ 3, .addColumn ⟨0⟩, .changeBound ⟨0⟩ .upper 4,
  .changeConstant ⟨0⟩ 0, .changeSide ⟨0⟩ .upper .posInf]

theorem sync_after_detour_returning :
    let lp := fresh.performAll solvingActions
    let t := lp.performAll returningActions
    t.matrix.synced = false ∧ ∃ u, sync.run.run t = (.ok (), u) ∧ u.solver = lp.solver ∧
      u.flags = t.flags ∧ u.status = t.status ∧ u.matrix.synced = true ∧
        ∀ n, u.performAll (List.replicate n .sync) = u := by
  refine ⟨by decide +kernel, ?_⟩
  exact sync_after_detour create_fresh (by decide +kernel) rfl (by decide +kernel)
    (by decide +kernel) (by decide) rfl (by decide +kernel) (by decide +kernel)
    (by decide +kernel) (by decide +kernel)

end Relaxation

end CertifiedLp
