import Mathlib
import CertifiedLp.Proofs.Relaxation.Telling

/-!
# Handing new lines to the simplex solver

The lines that the solver does not have are linked, written into a batch and added. The batch has a
line's own values and the active part of its list, which are the coefficients that both lines know,
so that the solver afterwards holds what it was told of the new lines as well as of the old ones.
-/

namespace CertifiedLp

/-- Where a test for each item succeeds, the results are at the same positions. -/
theorem getElem?_filterMap_of_isSome {α β : Type} {f : α → Option β} {xs : List α}
    (h : ∀ x ∈ xs, (f x).isSome = true) (k : Nat) : (xs.filterMap f)[k]? = xs[k]?.bind f := by
  induction xs generalizing k with
  | nil => rfl
  | cons x xs ih =>
    obtain ⟨y, hy⟩ := Option.isSome_iff_exists.mp (h x List.mem_cons_self)
    rw [List.filterMap_cons_some hy]
    cases k with
    | zero => exact hy.symm
    | succ k => exact ih (fun z hz => h z (List.mem_cons_of_mem x hz)) k

theorem length_filterMap_of_isSome {α β : Type} {f : α → Option β} {xs : List α}
    (h : ∀ x ∈ xs, (f x).isSome = true) : (xs.filterMap f).length = xs.length := by
  induction xs with
  | nil => rfl
  | cons x xs ih =>
    obtain ⟨y, hy⟩ := Option.isSome_iff_exists.mp (h x List.mem_cons_self)
    rw [List.filterMap_cons_some hy, List.length_cons, List.length_cons,
      ih fun z hz => h z (List.mem_cons_of_mem x hz)]

namespace ConstraintMatrix

variable {m : ConstraintMatrix} {c : ColumnRef} {r : RowRef} {row : Row}

/-! ## Linking several lines -/

/-- Linking columns concerns no other coefficients. -/
theorem Sound.linked_linkColumns (hm : m.Sound) {cs : List ColumnRef} (hc : c ∉ cs) (r : RowRef) :
    (m.linkColumns cs).linked c r = m.linked c r := by
  induction cs using List.reverseRecOn with
  | nil => rfl
  | append_singleton cs d ih =>
    have hd : Line.column d ≠ .column c := fun heq => hc (by simp [Line.column.inj heq])
    have hlink : Ends (linkColumn d) (m.linkColumns cs)
        (fun _ t => t.linked c r = (m.linkColumns cs).linked c r)
        fun _ t => t.linked c r = (m.linkColumns cs).linked c r :=
      (ends_linkColumn (hm.linkColumns cs).sound d).mono_ok fun _ _ ht => ht.1.linked hd (by simp)
    rw [linkColumns_concat]
    exact (hlink.state (I := fun t : ConstraintMatrix =>
      t.linked c r = (m.linkColumns cs).linked c r)).trans
      (ih fun h => hc (by simp [h]))

theorem Sound.linked_linkRows (hm : m.Sound) {rs : List RowRef}
    (hrs : ∀ r ∈ rs, m.InOrder (.row r) ∧ m.Has (.row r)) (hr : r ∉ rs) (c : ColumnRef) :
    (m.linkRows rs).linked c r = m.linked c r := by
  induction rs using List.reverseRecOn with
  | nil => rfl
  | append_singleton rs s ih =>
    have hs : Line.row s ≠ .row r := fun heq => hr (by simp [Line.row.inj heq])
    have hbefore := hm.linkRows fun r hr => hrs r (List.mem_append_left _ hr)
    obtain ⟨horder, hhas⟩ := hrs s (List.mem_append_right _ List.mem_cons_self)
    obtain ⟨row, hrow⟩ := Option.isSome_iff_exists.mp
      ((has_congr hbefore.without (.row s)).mpr hhas)
    have hlink : Ends (linkRow s) (m.linkRows rs)
        (fun _ t => t.linked c r = (m.linkRows rs).linked c r)
        fun _ t => t.linked c r = (m.linkRows rs).linked c r :=
      (ends_linkRow hbefore.sound ((inOrder_congr hbefore.without _).mpr horder) hrow).mono_ok
        fun _ _ ht => ht.1.linked (by simp) hs
    rw [linkRows_concat]
    exact (hlink.state (I := fun t : ConstraintMatrix =>
      t.linked c r = (m.linkRows rs).linked c r)).trans
      (ih (fun r hr => hrs r (List.mem_append_left _ hr)) fun h => hr (by simp [h]))

/-! ## Attaching several lines -/

/-- To attach lines touches no coefficient. -/
theorem shape_attachColumns (m : ConstraintMatrix) (xs : List (ColumnRef × Nat)) :
    (m.attachColumns xs).shape = m.shape := by
  induction xs using List.reverseRecOn with
  | nil => rfl
  | append_singleton xs x ih =>
    rw [attachColumns_concat, ← ih]
    exact shape_modifyColumn (g := (·.attach x.2)) (m.attachColumns xs) x.1 fun _ => rfl

theorem shape_attachRows (m : ConstraintMatrix) (xs : List (RowRef × Nat)) :
    (m.attachRows xs).shape = m.shape := by
  induction xs using List.reverseRecOn with
  | nil => rfl
  | append_singleton xs x ih =>
    rw [attachRows_concat, ← ih]
    exact shape_modifyRow (g := (·.attach x.2)) (m.attachRows xs) x.1 fun _ => rfl

theorem solverColumns_attachColumns (m : ConstraintMatrix) (xs : List (ColumnRef × Nat)) :
    (m.attachColumns xs).solverColumns = m.solverColumns ++ (xs.map (·.1)).toArray := by
  induction xs using List.reverseRecOn with
  | nil => simp [attachColumns]
  | append_singleton xs x ih =>
    rw [attachColumns_concat, ih, ← Array.append_singleton, Array.append_assoc]
    simp

theorem solverRows_attachRows (m : ConstraintMatrix) (xs : List (RowRef × Nat)) :
    (m.attachRows xs).solverRows = m.solverRows ++ (xs.map (·.1)).toArray := by
  induction xs using List.reverseRecOn with
  | nil => simp [attachRows]
  | append_singleton xs x ih =>
    rw [attachRows_concat, ih, ← Array.append_singleton, Array.append_assoc]
    simp

theorem column_attachColumns_of_notMem {xs : List (ColumnRef × Nat)} (hc : c ∉ xs.map (·.1)) :
    (m.attachColumns xs).column c = m.column c := by
  induction xs using List.reverseRecOn with
  | nil => rfl
  | append_singleton xs x ih =>
    have hx : x.1 ≠ c := fun heq => hc (by simp [heq])
    rw [attachColumns_concat, ← ih fun h => hc (by rw [List.map_append]; exact List.mem_append_left _ h)]
    exact column_modifyColumn_of_ne hx _

theorem row?_attachRows_of_notMem {xs : List (RowRef × Nat)} (hr : r ∉ xs.map (·.1)) :
    (m.attachRows xs).row? r = m.row? r := by
  induction xs using List.reverseRecOn with
  | nil => rfl
  | append_singleton xs x ih =>
    have hx : x.1 ≠ r := fun heq => hr (by simp [heq])
    rw [attachRows_concat, ← ih fun h => hr (by rw [List.map_append]; exact List.mem_append_left _ h)]
    exact (row?_modifyRow ..).trans (if_neg hx)

/-- The solver was told what an attached column says. -/
theorem sent_attachColumns {xs : List (ColumnRef × Nat)} (hc : c ∈ xs.map (·.1))
    (hhas : m.Has (.column c)) : ((m.attachColumns xs).column c).sent = (m.column c).spec := by
  induction xs using List.reverseRecOn with
  | nil => cases hc
  | append_singleton xs x ih =>
    have hspec : ((m.attachColumns xs).column c).spec = (m.column c).spec :=
      attachColumns_keeps (P := (·.spec = _)) (fun _ _ h => h) rfl
    rw [attachColumns_concat]
    by_cases hx : x.1 = c
    · have hsize : c.index < (m.attachColumns xs).columns.size := by
        have hshape := congrArg (·.columns.size) (shape_attachColumns m xs)
        simp only [shape, without, Array.size_map] at hshape
        exact hshape ▸ hhas
      subst hx
      exact (congrArg Column.sent (column_modifyColumn_self hsize _)).trans hspec
    · refine (congrArg Column.sent (column_modifyColumn_of_ne hx _)).trans (ih ?_)
      rw [List.map_append, List.mem_append] at hc
      exact hc.resolve_right fun h => hx (List.mem_singleton.mp h).symm

theorem exists_row_attachRows {xs : List (RowRef × Nat)} {row' : Row}
    (h : (m.attachRows xs).row? r = some row') : ∃ row, m.row? r = some row ∧
      row'.spec = row.spec ∧ (r ∈ xs.map (·.1) → row'.sent = row.spec) := by
  induction xs using List.reverseRecOn generalizing row' with
  | nil => exact ⟨row', h, rfl, fun hr => nomatch hr⟩
  | append_singleton xs x ih =>
    rw [attachRows_concat] at h
    have h := (row?_modifyRow (m.attachRows xs) x.1 r (·.attach x.2)).symm.trans h
    split at h
    · obtain ⟨row₀, hrow₀, rfl⟩ := Option.map_eq_some_iff.mp h
      obtain ⟨row, hrow, hspec, -⟩ := ih hrow₀
      exact ⟨row, hrow, hspec, fun _ => hspec⟩
    · next hx =>
      obtain ⟨row, hrow, hspec, hsent⟩ := ih h
      refine ⟨row, hrow, hspec, fun hr => hsent ?_⟩
      rw [List.map_append, List.mem_append] at hr
      exact hr.resolve_right fun h => hx (List.mem_singleton.mp h).symm

end ConstraintMatrix

namespace Relaxation

open ConstraintMatrix (ColumnsUnmarked RowsUnmarked Retells)

/-! ## Batches -/

section Batches

variable {σ : Type} [Solver σ] {m : ConstraintMatrix} {s : σ} {c : ColumnRef} {r : RowRef} {row : Row}
variable {k : Nat}

theorem columnBatch_eq (m : ConstraintMatrix) (s : σ) (cs : List ColumnRef) :
    columnBatch m s cs = {
      objective := (cs.map fun c => (m.column c).spec.objective).toArray
      lower := (cs.map fun c => Solver.encode s (m.column c).spec.bounds.lower).toArray
      upper := (cs.map fun c => Solver.encode s (m.column c).spec.bounds.upper).toArray
      entries := .ofLines (cs.map fun c => columnItems m (m.column c)) } := by
  induction cs using List.reverseRecOn with
  | nil => rfl
  | append_singleton cs c ih =>
    rw [columnBatch_concat, ih, withColumn]
    simp [Compressed.ofLines_concat]

/-- Rows that do not exist are left out. -/
theorem rowBatch_eq (m : ConstraintMatrix) (s : σ) (rs : List RowRef) :
    rowBatch m s rs = {
      lhs := ((rs.filterMap m.row?).map fun row =>
        Solver.encode s (row.spec.solverSide .lower)).toArray
      rhs := ((rs.filterMap m.row?).map fun row =>
        Solver.encode s (row.spec.solverSide .upper)).toArray
      entries := .ofLines ((rs.filterMap m.row?).map (rowItems m)) } := by
  induction rs using List.reverseRecOn with
  | nil => rfl
  | append_singleton rs r ih =>
    rw [rowBatch_concat, ih, withRow, List.filterMap_append]
    cases hrow : m.row? r with
    | none => simp [hrow]
    | some row => simp [hrow, Compressed.ofLines_concat]

end Batches

variable {lp : Relaxation Simplex} {c : ColumnRef} {r : RowRef} {row : Row} {i j n : Nat}
variable {s : Simplex} {dense : Array Rat}

/-! ## Coefficients -/

theorem Coherent.isActive_of_solverRow (hlp : lp.Coherent) (hlead : RowsLead lp)
    (hj : lp.matrix.solverRows[j]? = some r) : lp.matrix.grid.isActive (.row r) = true := by
  have hactive : lp.rows[j]? = some r :=
    (hlead.agree j (Array.getElem?_eq_some_iff.mp hj).1).trans hj
  rw [ConstraintMatrix.isActive_row_places]
  exact hlp.placed.rows.isSome_of_mem trivial (Array.mem_of_getElem? hactive)

theorem Coherent.isActive_of_solverColumn (hlp : lp.Coherent) (hlead : ColumnsLead lp)
    (hi : lp.matrix.solverColumns[i]? = some c) : (lp.matrix.column c).isActive = true := by
  have hactive : lp.columns[i]? = some c :=
    (hlead.agree i (Array.getElem?_eq_some_iff.mp hi).1).trans hi
  exact hlp.placed.columns.isSome_of_mem trivial (Array.mem_of_getElem? hactive)

/-- A column of a batch has the coefficients that both of their lines know. -/
theorem Coherent.dense_columnItems (hlp : lp.Coherent) (hlead : RowsLead lp)
    (hj : lp.matrix.solverRows[j]? = some r) (hrow : lp.matrix.row? r = some row) (hjn : j < n)
    (h : Simplex.toDense n (columnItems lp.matrix (lp.matrix.column c)) = .ok dense) :
    dense[j]? = some (lp.matrix.linked c r) := by
  refine (Simplex.toDense_spec h).2 j hjn _ ?_ fun hnone => ?_
  · rintro ⟨p, v⟩ hx rfl
    rw [columnItems_eq, List.mem_filterMap] at hx
    obtain ⟨⟨r', v'⟩, hterm, hx⟩ := hx
    obtain ⟨p', hposition, heq⟩ := Option.map_eq_some_iff.mp hx
    obtain ⟨rfl, rfl⟩ := Prod.mk.inj heq
    obtain ⟨row', hrow', hposition⟩ := Option.bind_eq_some_iff.mp hposition
    have hr' := (hlp.solverPosition_row hrow' _).mp hposition
    obtain rfl : r = r' := Option.some.inj (hj.symm.trans hr')
    exact (hlp.sound.linked_of_columnTerm hterm).symm
  · refine (hlp.sound.linked_of_no_columnTerm (hlp.isActive_of_solverRow hlead hj)
      fun v hterm => ?_)
    refine hnone (j, v) ?_ rfl
    rw [columnItems_eq, List.mem_filterMap]
    refine ⟨(r, v), hterm, ?_⟩
    rw [hrow, Option.bind_some, (hlp.solverPosition_row hrow j).mpr hj, Option.map_some]

/-- A row of a batch has the coefficients that both of their lines know. -/
theorem Coherent.dense_rowItems (hlp : lp.Coherent) (hlead : ColumnsLead lp)
    (hi : lp.matrix.solverColumns[i]? = some c) (hrow : lp.matrix.row? r = some row) (hin : i < n)
    (h : Simplex.toDense n (rowItems lp.matrix row) = .ok dense) :
    dense[i]? = some (lp.matrix.linked c r) := by
  refine (Simplex.toDense_spec h).2 i hin _ ?_ fun hnone => ?_
  · rintro ⟨p, v⟩ hx rfl
    rw [rowItems_eq, List.mem_filterMap] at hx
    obtain ⟨⟨c', v'⟩, hterm, hx⟩ := hx
    obtain ⟨p', hposition, heq⟩ := Option.map_eq_some_iff.mp hx
    obtain ⟨rfl, rfl⟩ := Prod.mk.inj heq
    have hc' := (hlp.solverPosition_column c' _).mp hposition
    obtain rfl : c = c' := Option.some.inj (hi.symm.trans hc')
    exact (hlp.sound.linked_of_rowTerm hrow hterm).symm
  · refine (hlp.sound.linked_of_no_rowTerm hrow (hlp.isActive_of_solverColumn hlead hi)
      fun v hterm => ?_)
    refine hnone (i, v) ?_ rfl
    rw [rowItems_eq, List.mem_filterMap]
    exact ⟨(c, v), hterm, by rw [(hlp.solverPosition_column c i).mpr hi, Option.map_some]⟩

/-! ## Linking -/

/-- As long as linking concerns no coefficient that the solver has, the solver holds what it was
told. -/
theorem Told.link (h : lp.Told) {m : ConstraintMatrix}
    (hm : m.without .entries = lp.matrix.without .entries)
    (hlinked : ∀ {i j : Nat} {c r}, lp.matrix.solverColumns[i]? = some c →
      lp.matrix.solverRows[j]? = some r → m.linked c r = lp.matrix.linked c r) :
    { lp with matrix := m }.Told := by
  have hcolumns : m.solverColumns = lp.matrix.solverColumns := congrArg (·.solverColumns) hm
  have hrows : m.solverRows = lp.matrix.solverRows := congrArg (·.solverRows) hm
  have hcolumn {β : Type} (g : Column → β) (hg : ∀ c, g (Forgetting.entries.column c) = g c)
      (c : ColumnRef) : g (m.column c) = g (lp.matrix.column c) :=
    Forgetting.column_congr g (ConstraintMatrix.column_eq_of_without hm c) hg
  have hrow {r : RowRef} {row' : Row} (hrow' : m.row? r = some row') :
      ∃ row, lp.matrix.row? r = some row ∧ row'.sent = row.sent ∧
        row'.coefficientChanged = row.coefficientChanged := by
    obtain ⟨row, hrow, heq⟩ := ConstraintMatrix.row_eq_of_without hm.symm hrow'
    exact ⟨row, hrow, (Forgetting.row_congr Row.sent heq fun _ => rfl).symm,
      (Forgetting.row_congr Row.coefficientChanged heq fun _ => rfl).symm⟩
  have hretells : Retells lp.matrix m :=
    ⟨fun {c} _ => ⟨hcolumn Column.sent (fun _ => rfl) c, fun _ => h.columns c⟩,
      fun _ hrow' => by
        obtain ⟨row, hold, hsent, -⟩ := hrow hrow'
        exact ⟨row, hold, hsent, fun _ => h.rows hold⟩,
      fun hc hr _ _ _ => by
        rw [hcolumns] at hc
        rw [hrows] at hr
        obtain ⟨i, hi⟩ := Array.mem_iff_getElem?.mp hc
        obtain ⟨j, hj⟩ := Array.mem_iff_getElem?.mp hr
        exact hlinked hi hj⟩
  refine ⟨h.conveyed.retell hretells (refl _) hcolumns hrows, fun c => ?_, fun {r row'} hrow' => ?_⟩
  · exact (hcolumn Column.coefficientChanged (fun _ => rfl) c).trans (h.columns c)
  · obtain ⟨row, hold, -, hmark⟩ := hrow hrow'
    exact hmark.trans (h.rows hold)

/-- What the solver has is not new. -/
theorem Coherent.notMem_newColumns (hlp : lp.Coherent) (hlead : ColumnsLead lp)
    (hi : lp.matrix.solverColumns[i]? = some c) : c ∉ lp.newColumns := by
  intro hc
  have hlt := (Array.getElem?_eq_some_iff.mp hi).1
  obtain ⟨k, hk⟩ := List.mem_iff_getElem?.mp hc
  have hfirst := (hlp.placed.columns c trivial _).mpr ((hlead.agree i hlt).trans hi)
  have hlater := (hlp.placed.columns c trivial _).mpr (getElem?_extract_end hk)
  have heq := Option.some.inj (hfirst.symm.trans hlater)
  omega

theorem Coherent.notMem_newRows (hlp : lp.Coherent) (hlead : RowsLead lp)
    (hj : lp.matrix.solverRows[j]? = some r) : r ∉ lp.newRows := by
  intro hr
  have hlt := (Array.getElem?_eq_some_iff.mp hj).1
  obtain ⟨k, hk⟩ := List.mem_iff_getElem?.mp hr
  have hfirst := (hlp.placed.rows r trivial _).mpr ((hlead.agree j hlt).trans hj)
  have hlater := (hlp.placed.rows r trivial _).mpr (getElem?_extract_end hk)
  have heq := Option.some.inj (hfirst.symm.trans hlater)
  omega

theorem Told.linkNewColumns (h : lp.Told) (hlp : lp.Coherent) (hlead : ColumnsLead lp) :
    lp.linkNewColumns.Told :=
  h.link (hlp.sound.linkColumns lp.newColumns).without fun hi _ =>
    hlp.sound.linked_linkColumns (hlp.notMem_newColumns hlead hi) _

theorem Told.linkNewRows (h : lp.Told) (hlp : lp.Coherent) (hlead : RowsLead lp) :
    lp.linkNewRows.Told :=
  h.link (hlp.sound.linkRows hlp.live_newRows).without fun _ hj =>
    hlp.sound.linked_linkRows hlp.live_newRows (hlp.notMem_newRows hlead hj) _

theorem Coherent.unmoved_linkNewColumns (hlp : lp.Coherent) : Unmoved lp lp.linkNewColumns :=
  ⟨.of_entries (hlp.sound.linkColumns lp.newColumns).without, rfl, rfl, fun _ => refl _⟩

theorem Coherent.unmoved_linkNewRows (hlp : lp.Coherent) : Unmoved lp lp.linkNewRows :=
  ⟨.of_entries (hlp.sound.linkRows hlp.live_newRows).without, rfl, rfl, fun _ => refl _⟩

theorem Coherent.linkNewColumns (hlp : lp.Coherent) : lp.linkNewColumns.Coherent :=
  hlp.unmoved_linkNewColumns.coherent hlp (hlp.sound.linkColumns lp.newColumns).sound

theorem Coherent.linkNewRows (hlp : lp.Coherent) : lp.linkNewRows.Coherent :=
  hlp.unmoved_linkNewRows.coherent hlp (hlp.sound.linkRows hlp.live_newRows).sound

/-! ## Additions -/

/-- A column that the solver has afterwards is an old or a new one. -/
theorem getElem?_attachNewColumns (h : lp.attachNewColumns.matrix.solverColumns[i]? = some c) :
    lp.matrix.solverColumns[i]? = some c ∨
      ∃ k, i = lp.matrix.solverColumns.size + k ∧ lp.newColumns[k]? = some c := by
  have hlist : lp.attachNewColumns.matrix.solverColumns =
      lp.matrix.solverColumns ++ lp.newColumns.toArray := by
    rw [← List.zipIdx_map_fst lp.matrix.solverColumns.size lp.newColumns]
    exact ConstraintMatrix.solverColumns_attachColumns ..
  rw [hlist, Array.getElem?_append] at h
  split at h
  · exact .inl h
  · next hge => exact .inr ⟨i - lp.matrix.solverColumns.size, by omega, by simpa using h⟩

theorem getElem?_attachNewRows (h : lp.attachNewRows.matrix.solverRows[j]? = some r) :
    lp.matrix.solverRows[j]? = some r ∨
      ∃ k, j = lp.matrix.solverRows.size + k ∧ lp.newRows[k]? = some r := by
  have hlist : lp.attachNewRows.matrix.solverRows =
      lp.matrix.solverRows ++ lp.newRows.toArray := by
    rw [← List.zipIdx_map_fst lp.matrix.solverRows.size lp.newRows]
    exact ConstraintMatrix.solverRows_attachRows ..
  rw [hlist, Array.getElem?_append] at h
  split at h
  · exact .inl h
  · next hge => exact .inr ⟨j - lp.matrix.solverRows.size, by omega, by simpa using h⟩

theorem linked_attachNewColumns (lp : Relaxation Simplex) :
    lp.attachNewColumns.matrix.linked = lp.matrix.linked :=
  ConstraintMatrix.linked_of_shape (ConstraintMatrix.shape_attachColumns lp.matrix _)

theorem linked_attachNewRows (lp : Relaxation Simplex) :
    lp.attachNewRows.matrix.linked = lp.matrix.linked :=
  ConstraintMatrix.linked_of_shape (ConstraintMatrix.shape_attachRows lp.matrix _)

/-- Lines that the solver has are as they were, and new ones are noted as told. -/
theorem Coherent.column_attachNewColumns (hlp : lp.Coherent) (hlead : ColumnsLead lp)
    (hi : lp.matrix.solverColumns[i]? = some c) :
    lp.attachNewColumns.matrix.column c = lp.matrix.column c :=
  ConstraintMatrix.column_attachColumns_of_notMem <| by
    rw [List.zipIdx_map_fst]
    exact hlp.notMem_newColumns hlead hi

theorem Coherent.row?_attachNewRows (hlp : lp.Coherent) (hlead : RowsLead lp)
    (hj : lp.matrix.solverRows[j]? = some r) :
    lp.attachNewRows.matrix.row? r = lp.matrix.row? r :=
  ConstraintMatrix.row?_attachRows_of_notMem <| by
    rw [List.zipIdx_map_fst]
    exact hlp.notMem_newRows hlead hj

theorem Coherent.sent_attachNewColumns (hlp : lp.Coherent) (hc : c ∈ lp.newColumns) :
    (lp.attachNewColumns.matrix.column c).sent = (lp.matrix.column c).spec := by
  refine ConstraintMatrix.sent_attachColumns (by rwa [List.zipIdx_map_fst]) ?_
  obtain ⟨i, hi⟩ := Array.mem_iff_getElem?.mp
    (Array.mem_toList_iff.mp ((sublist_extract ..).subset hc))
  exact ConstraintMatrix.has_of_activeColumn ((hlp.placed.columns c trivial i).mpr hi)

theorem exists_row_attachNewRows {row' : Row} (hr : r ∈ lp.newRows)
    (hrow' : lp.attachNewRows.matrix.row? r = some row') :
    ∃ row, lp.matrix.row? r = some row ∧ row'.sent = row.spec := by
  obtain ⟨row, hrow, -, hsent⟩ := ConstraintMatrix.exists_row_attachRows hrow'
  exact ⟨row, hrow, hsent (by rwa [List.zipIdx_map_fst])⟩

/-- The solver holds the old columns as before, and the new ones as the batch says. -/
theorem Told.attachNewColumns (h : lp.Told) (hlp : lp.Coherent) (hlead : ColumnsLead lp)
    (hrowsLead : RowsLead lp) (hs : Simplex.HoldsColumns
      (columnBatch lp.matrix lp.solver lp.newColumns) lp.solver s
      (columnBatch lp.matrix lp.solver lp.newColumns).size) (flags : Flags) (status : LpStatus) :
    Told { lp.attachNewColumns with solver := s, flags, status } := by
  have hbatch := columnBatch_eq lp.matrix lp.solver lp.newColumns
  have hsize : (columnBatch lp.matrix lp.solver lp.newColumns).size = lp.newColumns.length := by
    simp [hbatch, ColumnBatch.size]
  rw [hsize, hbatch] at hs
  have hnrColumns := h.conveyed.nrColumns
  have hold {i : Nat} {c : ColumnRef} (hi : lp.matrix.solverColumns[i]? = some c) :
      i < lp.solver.nrColumns ∧ lp.attachNewColumns.matrix.column c = lp.matrix.column c :=
    ⟨hnrColumns ▸ (Array.getElem?_eq_some_iff.mp hi).1, hlp.column_attachNewColumns hlead hi⟩
  have hnew {k : Nat} {c : ColumnRef} (hk : lp.newColumns[k]? = some c) :
      (lp.attachNewColumns.matrix.column c).sent = (lp.matrix.column c).spec :=
    hlp.sent_attachNewColumns (List.mem_of_getElem? hk)
  have hlt {k : Nat} {c : ColumnRef} (hk : lp.newColumns[k]? = some c) :
      k < lp.newColumns.length := (List.getElem?_eq_some_iff.mp hk).1
  refine ⟨⟨hs.rectangular, ?_, hs.nrRows.trans h.conveyed.nrRows, fun {i c} hi => ?_,
    fun {i c} hi => ?_, fun {j r row} hj hrow => ?_, fun {i j c r row} hi hj hrow _ _ => ?_⟩,
    fun c => ?_, h.rows⟩
  · refine hs.nrColumns.trans (Eq.trans ?_ (ConstraintMatrix.size_attachColumns ..).symm)
    rw [hnrColumns, List.length_zipIdx]
  · rcases getElem?_attachNewColumns hi with hi | ⟨k, rfl, hk⟩
    · obtain ⟨hi', hcolumn⟩ := hold hi
      rw [← hs.old.cost i hi', h.conveyed.cost hi]
      exact congrArg (fun column : Column => Simplex.finiteEnd? column.sent.objective) hcolumn.symm
    · rw [← hnrColumns, hs.cost k (hlt hk)]
      refine congrArg Simplex.finiteEnd? (Eq.trans ?_ (congrArg ColumnSpec.objective (hnew hk)).symm)
      simp [hk]
  · rcases getElem?_attachNewColumns hi with hi | ⟨k, rfl, hk⟩
    · obtain ⟨hi', hcolumn⟩ := hold hi
      rw [← hs.old.bounds i hi', h.conveyed.bounds hi]
      exact congrArg (fun column : Column => some
        (Simplex.toBounds column.sent.bounds.lower column.sent.bounds.upper)) hcolumn.symm
    · rw [← hnrColumns, hs.bounds k (hlt hk)]
      refine congrArg some (Eq.trans ?_ (congrArg (fun spec : ColumnSpec =>
        Simplex.toBounds spec.bounds.lower spec.bounds.upper) (hnew hk)).symm)
      simp [hk, Simplex.toBounds_encode]
  · rw [← hs.old.sides j (h.conveyed.nrRows ▸ (Array.getElem?_eq_some_iff.mp hj).1)]
    exact h.conveyed.sides hj hrow
  · have hj' : j < lp.solver.nrRows := h.conveyed.nrRows ▸ (Array.getElem?_eq_some_iff.mp hj).1
    refine Eq.trans ?_ (congrArg (fun linked => some (linked c r)) lp.linked_attachNewColumns).symm
    rcases getElem?_attachNewColumns hi with hi | ⟨k, rfl, hk⟩
    · rw [← hs.old.entry j hj' i (hold hi).1]
      exact h.entry hi hj hrow
    · obtain ⟨dense, hdense, hentries⟩ := hs.entries k (hlt hk)
      have hitems : (Compressed.ofLines (lp.newColumns.map fun c =>
          columnItems lp.matrix (lp.matrix.column c))).items k =
            columnItems lp.matrix (lp.matrix.column c) :=
        Compressed.items_ofLines (by rw [List.getElem?_map, hk, Option.map_some])
      rw [hitems] at hdense
      have hentry := hlp.dense_columnItems hrowsLead hj hrow hj' hdense
      rw [← hnrColumns, hentries j hj', Array.getD_eq_getD_getElem?, hentry, Option.getD_some]
  · exact h.columns.attachColumns _ c

/-- The solver holds the old rows as before, and the new ones as the batch says. -/
theorem Told.attachNewRows (h : lp.Told) (hlp : lp.Coherent) (hlead : RowsLead lp)
    (hcolumnsLead : ColumnsLead lp) (hs : Simplex.HoldsRows
      (rowBatch lp.matrix lp.solver lp.newRows) lp.solver s
      (rowBatch lp.matrix lp.solver lp.newRows).size) (flags : Flags) (status : LpStatus) :
    Told { lp.attachNewRows with solver := s, flags, status } := by
  have hlive : ∀ r ∈ lp.newRows, (lp.matrix.row? r).isSome = true := fun r hr =>
    (hlp.live_newRows r hr).2
  have hbatch := rowBatch_eq lp.matrix lp.solver lp.newRows
  have hsize : (rowBatch lp.matrix lp.solver lp.newRows).size = lp.newRows.length := by
    simp [hbatch, RowBatch.size, length_filterMap_of_isSome hlive]
  rw [hsize, hbatch] at hs
  have hnrRows := h.conveyed.nrRows
  have hold {j : Nat} {r : RowRef} (hj : lp.matrix.solverRows[j]? = some r) :
      j < lp.solver.nrRows ∧ lp.attachNewRows.matrix.row? r = lp.matrix.row? r :=
    ⟨hnrRows ▸ (Array.getElem?_eq_some_iff.mp hj).1, hlp.row?_attachNewRows hlead hj⟩
  have hnew {k : Nat} {r : RowRef} {row' : Row} (hk : lp.newRows[k]? = some r)
      (hrow' : lp.attachNewRows.matrix.row? r = some row') : ∃ row, lp.matrix.row? r = some row ∧
        row'.sent = row.spec ∧ (lp.newRows.filterMap lp.matrix.row?)[k]? = some row := by
    obtain ⟨row, hrow, hsent⟩ := exists_row_attachNewRows (List.mem_of_getElem? hk) hrow'
    refine ⟨row, hrow, hsent, ?_⟩
    rw [getElem?_filterMap_of_isSome hlive, hk, Option.bind_some, hrow]
  have hlt {k : Nat} {r : RowRef} (hk : lp.newRows[k]? = some r) : k < lp.newRows.length :=
    (List.getElem?_eq_some_iff.mp hk).1
  refine ⟨⟨hs.rectangular, hs.nrColumns.trans h.conveyed.nrColumns, ?_, fun {i c} hi => ?_,
    fun {i c} hi => ?_, fun {j r row'} hj hrow' => ?_, fun {i j c r row'} hi hj hrow' _ _ => ?_⟩,
    h.columns, fun {r row'} hrow' => ?_⟩
  · refine hs.nrRows.trans (Eq.trans ?_ (ConstraintMatrix.size_attachRows ..).symm)
    rw [hnrRows, List.length_zipIdx]
  · rw [← hs.old.cost i (h.conveyed.nrColumns ▸ (Array.getElem?_eq_some_iff.mp hi).1)]
    exact h.conveyed.cost hi
  · rw [← hs.old.bounds i (h.conveyed.nrColumns ▸ (Array.getElem?_eq_some_iff.mp hi).1)]
    exact h.conveyed.bounds hi
  · rcases getElem?_attachNewRows hj with hj | ⟨k, rfl, hk⟩
    · obtain ⟨hj', hrow⟩ := hold hj
      rw [← hs.old.sides j hj']
      exact h.conveyed.sides hj (hrow ▸ hrow')
    · obtain ⟨row, hrow, hsent, hget⟩ := hnew hk hrow'
      rw [← hnrRows, hs.sides k (hlt hk)]
      refine congrArg some (Eq.trans ?_ (congrArg (fun spec : RowSpec =>
        Simplex.toBounds (spec.solverSide .lower) (spec.solverSide .upper)) hsent).symm)
      simp [hget, Simplex.toBounds_encode]
  · have hi' : i < lp.solver.nrColumns :=
      h.conveyed.nrColumns ▸ (Array.getElem?_eq_some_iff.mp hi).1
    refine Eq.trans ?_ (congrArg (fun linked => some (linked c r)) lp.linked_attachNewRows).symm
    rcases getElem?_attachNewRows hj with hj | ⟨k, rfl, hk⟩
    · obtain ⟨hj', hrow⟩ := hold hj
      rw [← hs.old.entry j hj' i hi']
      exact h.entry hi hj (hrow ▸ hrow')
    · obtain ⟨row, hrow, -, hget⟩ := hnew hk hrow'
      obtain ⟨dense, hdense, hentries⟩ := hs.entries k (hlt hk)
      have hitems : (Compressed.ofLines ((lp.newRows.filterMap lp.matrix.row?).map
          (rowItems lp.matrix))).items k = rowItems lp.matrix row :=
        Compressed.items_ofLines (by rw [List.getElem?_map, hget, Option.map_some])
      rw [hitems] at hdense
      rw [← hnrRows, hentries i]
      exact hlp.dense_rowItems hcolumnsLead hi hrow hi' hdense
  · exact ConstraintMatrix.RowsUnmarked.attachRows h.rows _ hrow'

/-- The solver is handed the columns that it does not have. -/
theorem ends_tellAddedColumns (hlp : lp.Coherent) (hlead : ColumnsLead lp)
    (hrowsLead : RowsLead lp) (h : lp.Told) :
    Ends syncAddedColumns lp (fun _ t => t.Told) fun e t => e.isRejection = true ∨ t.Told := by
  by_cases hnone : lp.matrix.solverColumns.size = lp.columns.size
  · refine (ends_syncAddedColumns_none hnone).mono_ok ?_
    rintro _ t rfl
    exact h
  have hlinked := h.linkNewColumns hlp hlead
  have hunmoved := hlp.unmoved_linkNewColumns
  have hheld := Simplex.ends_addColumns_held hlinked.conveyed.rectangular
    (columnBatch lp.linkNewColumns.matrix lp.solver lp.linkNewColumns.newColumns)
  refine (ends_syncAddedColumns_exactly hlp hnone).mono ?_ ?_
  · rintro _ _ ⟨s, flags, status, hrun, rfl⟩
    exact hlinked.attachNewColumns hlp.linkNewColumns (hunmoved.columnsLead hlead)
      (hunmoved.rowsLead hrowsLead) (hheld.of_ok hrun) flags status
  · rintro e _ ⟨s, ⟨-, e', rfl, hrun⟩, rfl⟩
    refine (hheld.of_error hrun).imp id fun hsame => ?_
    rw [hsame]
    exact hlinked

/-- The solver is handed the rows that it does not have. -/
theorem ends_tellAddedRows (hlp : lp.Coherent) (hlead : RowsLead lp)
    (hcolumnsLead : ColumnsLead lp) (h : lp.Told) :
    Ends syncAddedRows lp (fun _ t => t.Told) fun e t => e.isRejection = true ∨ t.Told := by
  by_cases hnone : lp.matrix.solverRows.size = lp.rows.size
  · refine (ends_syncAddedRows_none hnone).mono_ok ?_
    rintro _ t rfl
    exact h
  have hlinked := h.linkNewRows hlp hlead
  have hunmoved := hlp.unmoved_linkNewRows
  have hheld := Simplex.ends_addRows_held hlinked.conveyed.rectangular
    (rowBatch lp.linkNewRows.matrix lp.solver lp.linkNewRows.newRows)
  refine (ends_syncAddedRows_exactly hlp hnone).mono ?_ ?_
  · rintro _ _ ⟨s, flags, status, hrun, rfl⟩
    exact hlinked.attachNewRows hlp.linkNewRows (hunmoved.rowsLead hlead)
      (hunmoved.columnsLead hcolumnsLead) (hheld.of_ok hrun) flags status
  · rintro e _ ⟨s, ⟨-, e', rfl, hrun⟩, rfl⟩
    refine (hheld.of_error hrun).imp id fun hsame => ?_
    rw [hsame]
    exact hlinked

/-! ## All stages -/

/-- What has to be told is noted, and the solver holds what it was told. -/
structure Faithful (lp : Relaxation Simplex) : Prop where
  tracked : lp.Tracked
  conveyed : lp.matrix.Conveyed lp.solver

theorem Told.faithful (h : lp.Told) (hlp : lp.Tracked) : lp.Faithful := ⟨hlp, h.conveyed⟩

/-- Unless it refuses a value, the solver holds what it was told, whether it could be brought up to
date or not. -/
theorem Faithful.ends_sync (h : lp.Faithful) :
    Ends sync lp (fun _ t => t.Faithful ∧ t.matrix.synced = true)
      fun e t => e.isRejection = true ∨ t.Faithful := by
  suffices htold : Ends sync lp (fun _ t => t.Tracked → t.Faithful)
      fun e t => e.isRejection = true ∨ (t.Tracked → t.Faithful) from
    ((Relaxation.ends_sync h.tracked).and htold).mono (fun _ _ ht => ⟨ht.2 ht.1.1, ht.1.2⟩)
      fun _ _ ht => ht.2.imp id fun hfaithful => hfaithful ht.1
  rw [sync, Ends.bind_iff, Ends.get_iff, Ends.ite_iff]
  refine ⟨fun hsynced => ?_, fun _ _ => h⟩
  rw [Bool.not_eq_true'] at hsynced
  have hsyncing := h.tracked.syncing hsynced
  rw [Ends.bind_iff]
  refine ((ends_trimColumns hsyncing).and
    (ends_tellDeletedColumns hsyncing.coherent hsyncing.watched h.conveyed)).mono
    (fun _ t₁ ht₁ => ?_) fun _ _ hfail => hfail.2.elim
  obtain ⟨h₁, hconveyed⟩ := ht₁
  rw [Ends.bind_iff]
  refine ((ends_trimRows h₁.1 h₁.2).and
    (ends_tellDeletedRows h₁.1.coherent h₁.1.watched hconveyed)).mono
    (fun _ t₂ ht₂ => ?_) fun _ _ hfail => hfail.2.elim
  obtain ⟨h₂, hconveyed⟩ := ht₂
  have htold : t₂.Told := ⟨hconveyed, h₂.columns.unmarked, h₂.rows.unmarked⟩
  rw [Ends.bind_iff]
  refine ((ends_noteChangedColumns h₂).and (ends_tellChangedColumns h₂.coherent htold)).mono
    (fun _ t₃ ht₃ => ?_) fun _ _ hfail => hfail.2.imp id Told.faithful
  obtain ⟨h₃, htold⟩ := ht₃
  rw [Ends.bind_iff]
  refine ((ends_noteChangedRows h₃).and (ends_tellChangedRows h₃.1.coherent htold)).mono
    (fun _ t₄ ht₄ => ?_) fun _ _ hfail => .inr hfail.2.faithful
  obtain ⟨h₄, htold⟩ := ht₄
  rw [Ends.bind_iff]
  refine ((ends_addNewColumns h₄.1).and (ends_tellAddedColumns h₄.1.coherent
    h₄.1.columns.lead h₄.1.rows.lead htold)).mono
    (fun _ t₅ ht₅ => ?_) fun _ _ hfail => hfail.2.imp id Told.faithful
  obtain ⟨h₅, htold⟩ := ht₅
  rw [Ends.bind_iff]
  refine ((ends_addNewRows h₅.1).and (ends_tellAddedRows h₅.1.1.coherent
    h₅.1.1.rows.lead h₅.1.1.columns.lead htold)).mono
    (fun _ t₆ ht₆ => ?_) fun _ _ hfail => hfail.2.imp id Told.faithful
  rw [ends_modifyMatrix]
  obtain ⟨hconveyed, hcolumns, hrows⟩ := ht₆.2
  have hsame : Told { t₆ with matrix := { t₆.matrix with synced := true } } :=
    ⟨⟨hconveyed.rectangular, hconveyed.nrColumns, hconveyed.nrRows, hconveyed.cost,
      hconveyed.bounds, hconveyed.sides, hconveyed.entry⟩, hcolumns, hrows⟩
  exact hsame.faithful

end Relaxation

end CertifiedLp
