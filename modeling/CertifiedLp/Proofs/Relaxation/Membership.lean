import Mathlib
import CertifiedLp.Proofs.Matrix.Releasing
import CertifiedLp.Proofs.Relaxation.Quiet

/-!
# Entering and leaving

Columns and rows are created, enter and leave the active linear program, and rows are used and
freed. Each of these operations keeps a relaxation coherent: the lists of active lines, and what the
lines know of them, change together.
-/

namespace CertifiedLp

namespace Relaxation

open ConstraintMatrix (Undisturbed)

variable {σ : Type} [Solver σ] {lp t u : Relaxation σ} {p q : Places} {c : ColumnRef} {r : RowRef}
variable {place : RowPlace} {E : LpError → Relaxation σ → Prop}

/-- The lines are at given places now, and nothing but the matrix changed of what places them. -/
structure Relocates (lp t : Relaxation σ) (p : Places) : Prop where
  matrix : lp.matrix.Relocated t.matrix p
  columns : t.columns = lp.columns
  rows : t.rows = lp.rows
  solver : t.solver = lp.solver

theorem Relocates.trans (h : Relocates lp t p) (h' : Relocates t u q) : Relocates lp u q :=
  ⟨h.matrix.trans h'.matrix, h'.columns.trans h.columns, h'.rows.trans h.rows,
    h'.solver.trans h.solver⟩

theorem relocates_refl (h : lp.matrix.Sound) : Relocates lp lp lp.matrix.places :=
  ⟨h.relocated, rfl, rfl, rfl⟩

theorem relocates_matrix {m : ConstraintMatrix} (h : lp.matrix.Relocated m p) :
    Relocates lp { lp with matrix := m } p := ⟨h, rfl, rfl, rfl⟩

/-- Lines were moved, and all lists fit. -/
theorem carried_of_placed {R : ConstraintMatrix → ConstraintMatrix → Prop}
    (hsound : t.matrix.Sound) (hmatrix : R lp.matrix t.matrix)
    (hplaces : t.matrix.places = p) (hplaced : Placed p t.columns t.rows)
    (hcolumns : AgreeBelow t.matrix.firstChangedColumn t.columns p.solverColumns)
    (hrows : AgreeBelow t.matrix.firstChangedRow t.rows p.solverRows)
    (hcounts : Solver.AllOrNothing σ → Solver.nrColumns t.solver = p.solverColumns.size ∧
      Solver.nrRows t.solver = p.solverRows.size) : Carried R lp t := by
  subst hplaces
  exact ⟨⟨hsound, hplaced, hcolumns, hrows, hcounts⟩, hmatrix⟩

/-- Lines were moved, and the lists of active lines fit. The lists for the solver are the same. -/
theorem Coherent.settle (hlp : lp.Coherent) (hsound : t.matrix.Sound)
    (hmatrix : lp.matrix.Undisturbed t.matrix) (hplaces : t.matrix.places = p)
    (hplaced : Placed p t.columns t.rows) (hsolver : t.solver = lp.solver)
    (hsolverColumns : p.solverColumns = lp.matrix.solverColumns)
    (hsolverRows : p.solverRows = lp.matrix.solverRows)
    (hcolumns : AgreeBelow t.matrix.firstChangedColumn t.columns lp.matrix.solverColumns)
    (hrows : AgreeBelow t.matrix.firstChangedRow t.rows lp.matrix.solverRows) :
    Carried Undisturbed lp t := by
  refine carried_of_placed hsound hmatrix hplaces hplaced (hsolverColumns ▸ hcolumns)
    (hsolverRows ▸ hrows) fun hs => ?_
  rw [hsolver, hsolverColumns, hsolverRows]
  exact hlp.counts hs

/-- A relocation that the lists of active lines still fit is carried. -/
theorem Coherent.relocated (hlp : lp.Coherent) (h : Relocates lp t p)
    (hplaced : Placed p lp.columns lp.rows)
    (hsolverColumns : p.solverColumns = lp.matrix.solverColumns)
    (hsolverRows : p.solverRows = lp.matrix.solverRows) : Carried Undisturbed lp t := by
  refine hlp.settle h.matrix.sound h.matrix.undisturbed h.matrix.places ?_ h.solver hsolverColumns
    hsolverRows ?_ ?_
  · rw [h.columns, h.rows]
    exact hplaced
  · rw [h.matrix.firstChangedColumn, h.columns]
    exact hlp.columnsAgree
  · rw [h.matrix.firstChangedRow, h.rows]
    exact hlp.rowsAgree

theorem exists_row_of_places (h : lp.matrix.places.row r = some place) :
    ∃ row, lp.matrix.row? r = some row ∧ row.place = place := Option.map_eq_some_iff.mp h

/-! ## Shares -/

/-- The use that the active linear program has of a row. -/
def share (lp : Relaxation σ) (r : RowRef) : Nat := if r ∈ lp.rows then 1 else 0

/-- Apart from what the active linear program has, all rows have as many uses. -/
def Balanced (lp t : Relaxation σ) : Prop :=
  ∀ r, t.matrix.uses r + lp.share r = lp.matrix.uses r + t.share r

instance : IsPreorder (Relaxation σ) Balanced where
  refl _ _ := rfl
  trans _ _ _ h h' r := by
    have := h r
    have := h' r
    omega

theorem balanced_of_uses (huses : ∀ r, t.matrix.uses r = lp.matrix.uses r)
    (hrows : t.rows = lp.rows) : Balanced lp t := fun r => by
  rw [huses, share, share, hrows]

theorem Unmoved.balanced (h : Unmoved lp t) : Balanced lp t :=
  balanced_of_uses h.stays.uses h.rows

/-- What is quiet leaves a relaxation carried and balanced. -/
theorem ends_quiet {α : Type} {x : RelaxationM σ α} (h : Carried Undisturbed lp t ∧ Balanced lp t)
    (hx : Along Quiet x) :
    Ends x t (fun _ u => Carried Undisturbed lp u ∧ Balanced lp u)
      fun _ u => Carried Undisturbed lp u ∧ Balanced lp u :=
  have hquiet {u : Relaxation σ} (hu : Quiet t u) : Carried Undisturbed lp u ∧ Balanced lp u :=
    ⟨h.1.trans (hu.carries h.1.coherent), IsTrans.trans _ _ _ h.2 hu.unmoved.balanced⟩
  (hx t).mono (fun _ _ => hquiet) fun _ _ => hquiet

/-- Columns may be anywhere. -/
theorem balanced_of_places (hplaces : t.matrix.places = p) (hrow : p.row = lp.matrix.places.row)
    (hrows : t.rows = lp.rows) : Balanced lp t :=
  balanced_of_uses (fun r => by
    rw [← ConstraintMatrix.uses_places, ← ConstraintMatrix.uses_places, hplaces, Places.uses, hrow,
      Places.uses]) hrows

/-- The active linear program gives up one use of each row that it loses. -/
theorem Coherent.balanced_of_removed (hlp : lp.Coherent) (removed : List RowRef)
    (hrows : (t.rows.toList ++ removed).Perm lp.rows.toList)
    (huses : ∀ r, t.matrix.places.uses r =
      if r ∈ removed then lp.matrix.places.uses r - 1 else lp.matrix.places.uses r) :
    Balanced lp t := by
  intro r
  have hmem : r ∈ lp.rows ↔ r ∈ t.rows ∨ r ∈ removed := by
    rw [← Array.mem_toList_iff, ← hrows.mem_iff, List.mem_append, Array.mem_toList_iff]
  rw [← ConstraintMatrix.uses_places, ← ConstraintMatrix.uses_places, huses, share, share]
  by_cases hr : r ∈ removed
  · have hactive : r ∈ lp.rows := hmem.mpr (.inr hr)
    have hout : r ∉ t.rows := fun hin => (List.nodup_append.mp
      (hrows.nodup_iff.mpr hlp.placed.rows.nodup)).2.2 r (Array.mem_toList_iff.mpr hin) r hr rfl
    obtain ⟨place, hplace⟩ := Option.isSome_iff_exists.mp
      (Places.isSome_row_of_mem hlp.placed.rows hactive)
    have hpositive := hlp.placed.used hplace
    rw [if_pos hr, if_pos hactive, if_neg hout, Places.uses_of_row hplace]
    omega
  · simp only [hr, or_false] at hmem
    simp only [if_neg hr, hmem]

/-! ## Creation -/

theorem ends_createColumn (hlp : lp.Coherent) (problem : Problem) (x : VariableRef) :
    Ends (createColumn problem x) lp (fun _ t => Carried Undisturbed lp t ∧ Balanced lp t)
      fun _ t => t = lp := by
  have hcolumn := hlp.sound.pushColumn x ((problem.get x).kind == .integer) (problem.get x).spec
  rw [ends_createColumn_iff]
  refine ⟨fun _ => rfl, fun _ => ⟨fun _ => rfl, fun _ => ?_⟩⟩
  exact ⟨hlp.relocated (p := lp.matrix.places) ⟨hcolumn, rfl, rfl, rfl⟩ hlp.placed rfl rfl,
    balanced_of_places hcolumn.places rfl rfl⟩

theorem along_createColumn (problem : Problem) (x : VariableRef) :
    Along (Carries Undisturbed) (createColumn problem x : RelaxationM σ (Problem × ColumnRef)) :=
  along_carries fun _ hlp => (ends_createColumn hlp problem x).mono (fun _ _ h => h.1) fun _ _ h => by
    rw [h]
    exact hlp.carried

/-- A new row has no coefficients. -/
theorem ends_createRow (hlp : lp.Coherent) (name : String) (spec : RowSpec) :
    Ends (createRow name spec) lp
      (fun _ t => t.Coherent ∧ t.matrix.amount = lp.matrix.amount ∧
        t.matrix.linked = lp.matrix.linked) fun _ t => t = lp := by
  rw [ends_createRow_iff]
  refine ⟨fun _ => rfl, fun _ => ?_⟩
  obtain ⟨hsound, hplaces, hamount, hlinked⟩ := hlp.sound.pushRow name spec
  refine ⟨⟨hsound, ?_, hlp.columnsAgree, hlp.rowsAgree, hlp.counts⟩, hamount, hlinked⟩
  rw [hplaces]
  refine hlp.placed.pushRow fun s hs => ?_
  rw [ConstraintMatrix.isSome_row_places] at hs
  by_contra hle
  rw [ConstraintMatrix.row?_of_size_le (Nat.not_lt.mp hle)] at hs
  cases hs

/-! ## Uses -/

theorem along_captureRow (r : RowRef) :
    Along (Carries Undisturbed) (captureRow r : RelaxationM σ Unit) :=
  along_carries fun lp hlp => by
    rw [captureRow, updateRow, ends_onMatrix, ConstraintMatrix.ends_updateRow_iff]
    refine ⟨fun _ => ?_, fun _ => hlp.carried⟩
    have hrelocated := hlp.sound.relocated_modifyRow r (g := fun place =>
        { place with nrUses := place.nrUses + 1 })
      (f := fun row => { row with nrUses := row.nrUses + 1 }) (fun _ => rfl) fun _ => rfl
    exact hlp.relocated (relocates_matrix hrelocated) (hlp.placed.use r) rfl rfl

/-- What a row was before does not matter after it was freed. -/
theorem dropRow_modifyUses (p : Places) (r : RowRef) (f : Nat → Nat) :
    (p.modifyUses r f).dropRow r = p.dropRow r := by
  rw [Places.dropRow, Places.dropRow, Places.modifyUses, Places.modifyRow, Places.mk.injEq]
  refine ⟨rfl, rfl, funext fun s => ?_, rfl, rfl, rfl⟩
  by_cases h : s = r <;> simp [h]

/-- A row can be released, unless that was the last use and the row is active. -/
theorem Relocates.ends_releaseRow (h : Relocates lp t p)
    (hused : ∀ {r place}, p.row r = some place → 0 < place.nrUses) (hr : p.row r = some place) :
    Ends (releaseRow r) t
      (fun _ u => Relocates lp u (p.release r) ∧ (p.uses r = 1 → p.activeRow r = none))
      fun _ u => u = t ∧ p.uses r = 1 ∧ p.activeRow r ≠ none := by
  obtain ⟨row, hrow, rfl⟩ := exists_row_of_places (h.matrix.places ▸ hr)
  have hpositive : 0 < row.nrUses := hused hr
  have huses : p.uses r = row.nrUses := Places.uses_of_row hr
  have hactive : p.activeRow r = row.activePosition := by
    rw [Places.activeRow, hr]
    rfl
  rw [releaseRow, Ends.bind_iff, ends_getRow hrow, if_neg (by omega), Ends.ite_iff]
  refine ⟨fun hlast => ?_, fun hinactive => ?_⟩
  · rw [Bool.and_eq_true, decide_eq_true_iff] at hlast
    rw [Ends.bind_iff, Ends.throw_iff, huses, hactive]
    exact ⟨rfl, hlast.1, Option.isSome_iff_ne_none.mp hlast.2⟩
  have hguard : p.uses r = 1 → p.activeRow r = none := by
    intro hlast
    simpa [← huses, hlast, hactive, Row.isActive] using hinactive
  have hrelocated := h.matrix.sound.relocated_modifyRow r (g := fun place =>
      { place with nrUses := place.nrUses - 1 })
    (f := fun row => { row with nrUses := row.nrUses - 1 }) (fun _ => rfl) fun _ => rfl
  rw [h.matrix.places] at hrelocated
  rw [Ends.bind_iff, ends_updateRow hrow, Ends.ite_iff, Places.release]
  refine ⟨fun hlast => ?_, fun hmore => ?_⟩
  · rw [ends_onMatrix, if_pos (huses.trans hlast)]
    have hreleased : (t.matrix.modifyRow r fun row =>
        { row with nrUses := row.nrUses - 1 }).row? r =
          some { row with nrUses := row.nrUses - 1 } := by
      rw [ConstraintMatrix.row?_modifyRow, if_pos rfl, hrow, Option.map_some]
    refine (ConstraintMatrix.ends_freeRow hrelocated.sound hreleased).mono_ok fun _ m hm => ?_
    have hfreed := hm.relocated
    rw [hrelocated.places] at hfreed
    have hdropped := hrelocated.trans hfreed
    rw [show (p.modifyRow r _).dropRow r = p.dropRow r from
      dropRow_modifyUses p r (· - 1)] at hdropped
    exact ⟨h.trans (relocates_matrix hdropped), hguard⟩
  · rw [Ends.pure_iff, if_neg (huses ▸ hmore)]
    exact ⟨h.trans (relocates_matrix hrelocated), hguard⟩

/-- Rows that left the active linear program or were freed are where the lists say. -/
theorem Coherent.withdrawn (hlp : lp.Coherent) (h : Relocates lp t q)
    (hq : Withdrawn lp.matrix.places q []) : Carried Undisturbed lp t := by
  have hcolumns : q.solverColumns = lp.matrix.solverColumns := by
    rw [hq.shifted.frame]
    rfl
  have hrows : q.solverRows = lp.matrix.solverRows := by
    rw [hq.shifted.frame]
    rfl
  refine hlp.relocated h (hlp.placed.shift hq.shifted ?_) hcolumns hrows
  exact hlp.placed.rows.congr fun s _ => ⟨trivial, by simp [hq.active]⟩

theorem along_releaseRow (r : RowRef) :
    Along (Carries Undisturbed) (releaseRow r : RelaxationM σ Unit) :=
  along_carries fun lp hlp => by
    cases hrow : lp.matrix.row? r with
    | none =>
      rw [releaseRow, Ends.bind_iff, ends_getRow_missing hrow]
      exact hlp.carried
    | some row =>
      refine ((relocates_refl hlp.sound).ends_releaseRow hlp.placed.used
        (ConstraintMatrix.row_places hrow)).mono ?_ ?_
      · rintro _ t ⟨hrelocates, hguard⟩
        exact hlp.withdrawn hrelocates (.release hlp.placed.used hguard)
      · rintro _ t ⟨rfl, -⟩
        exact hlp.carried

/-! ## Columns -/

/-- A column that is not active is appended to the active linear program. -/
theorem ends_addColumn_balanced (hlp : lp.Coherent) (hc : lp.matrix.Has (.column c)) :
    Ends (addColumn c) lp (fun _ t => Carried Undisturbed lp t ∧ Balanced lp t)
      fun _ t => t = lp := by
  rw [addColumn, Ends.bind_iff, ends_getColumn, Ends.ite_iff]
  refine ⟨fun _ => rfl, fun hinactive => ?_⟩
  have hnone : lp.matrix.places.activeColumn c = none := by
    simpa [Column.isActive, ConstraintMatrix.places] using hinactive
  rw [Ends.bind_iff, Ends.get_iff, Ends.bind_iff, ends_onMatrix]
  refine (ConstraintMatrix.ends_moveColumn hlp.sound hc _).mono_ok fun _ m hm => ?_
  rw [Ends.bind_iff, Ends.modify_iff]
  refine Ends.of_unfailing (ends_quiet ⟨hlp.settle hm.sound hm.undisturbed hm.places
    (hlp.placed.enterColumn hnone) rfl rfl rfl ?_ ?_, balanced_of_places hm.places rfl rfl⟩
    (.bind quiet_desync fun _ => .bind quiet_loseDual fun _ => quiet_markUnsolved)) ?_
  · exact hm.firstChangedColumn ▸ hlp.columnsAgree.push_left c
  · exact hm.firstChangedRow ▸ hlp.rowsAgree
  · simp [desync, loseDual, markUnsolved]

theorem ends_addColumn (hlp : lp.Coherent) (hc : lp.matrix.Has (.column c)) :
    Ends (addColumn c) lp (fun _ t => Carried Undisturbed lp t) fun _ t => t = lp :=
  (ends_addColumn_balanced hlp hc).mono_ok fun _ _ h => h.1

/-! ## The end of a list -/

section Ends

variable {α : Type}

/-- In a list without repetitions, nothing comes twice. -/
theorem not_mem_of_nodup {xs done rest : List α} {x : α} (hxs : xs.Nodup)
    (h : xs = done ++ x :: rest) : x ∉ done := by
  rw [h, List.nodup_append] at hxs
  exact fun hx => hxs.2.2 x hx x (by simp) rfl

theorem sublist_extract (xs : Array α) (start stop : Nat) :
    (xs.extract start stop).toList.Sublist xs.toList := by
  rw [Array.toList_extract, List.extract_eq_take_drop]
  exact (List.take_sublist _ _).trans (List.drop_sublist _ _)

/-- The end of a list, from the last to the first element. -/
def backwards (xs : Array α) (size : Nat) : List α := (xs.extract size xs.size).toList.reverse

theorem mem_backwards {xs : Array α} {size : Nat} {x : α} :
    x ∈ backwards xs size ↔ x ∈ xs.extract size xs.size := by
  rw [backwards, List.mem_reverse, Array.mem_toList_iff]

theorem mem_of_mem_backwards {xs : Array α} {size : Nat} {x : α} (h : x ∈ backwards xs size) :
    x ∈ xs := by
  rw [mem_backwards, ← Array.mem_toList_iff] at h
  exact Array.mem_toList_iff.mp ((sublist_extract ..).subset h)

theorem nodup_backwards {xs : Array α} (h : xs.toList.Nodup) (size : Nat) :
    (backwards xs size).Nodup :=
  List.nodup_reverse.mpr (h.sublist (sublist_extract ..))

end Ends

/-- All columns behind a position leave the active linear program. -/
theorem ends_shrinkColumns_balanced (hlp : lp.Coherent) (size : Nat) :
    Ends (shrinkColumns size) lp (fun _ t => Carried Undisturbed lp t ∧ Balanced lp t)
      fun _ _ => False := by
  rw [shrinkColumns, Ends.bind_iff, Ends.get_iff, Ends.ite_iff]
  refine ⟨fun _ => ?_, fun _ => ⟨hlp.carried, refl lp⟩⟩
  let left (done : List ColumnRef) : Places :=
    { lp.matrix.places with
      activeColumn := fun c => if c ∈ done then none else lp.matrix.places.activeColumn c }
  rw [Ends.bind_iff, Ends.modify_iff, Ends.bind_iff, ← backwards]
  refine (Ends.forIn_list (fun done t => Relocates
    { lp with columns := lp.columns.extract 0 size } t (left done)) ?_ ?_).mono_ok
    fun _ t ht => ?_
  · exact relocates_refl hlp.sound
  · intro done c rest t hxs ht
    obtain ⟨i, hi⟩ := Array.mem_iff_getElem?.mp (mem_of_mem_backwards (by
      rw [hxs]
      simp : c ∈ backwards lp.columns size))
    have hc : lp.matrix.Has (.column c) :=
      ConstraintMatrix.has_of_activeColumn ((hlp.placed.columns c trivial i).mpr hi)
    rw [Ends.bind_iff, ends_onMatrix]
    refine (ConstraintMatrix.ends_moveColumn ht.matrix.sound (ht.matrix.has hc) none).mono_ok
      fun _ m hm => ?_
    simp only [Ends.bind_iff, ends_getColumn, Ends.modify_iff, Ends.pure_iff, true_and]
    refine ht.trans ⟨?_, rfl, rfl, rfl⟩
    have hleft : t.matrix.places.moveColumn c none = left (done ++ [c]) := by
      rw [ht.matrix.places, Places.moveColumn, Places.mk.injEq]
      refine ⟨funext fun d => ?_, rfl, rfl, rfl, rfl, rfl⟩
      by_cases hd : d = c <;> by_cases hdone : d ∈ done <;> simp [left, hd, hdone]
    rwa [hleft] at hm
  · rw [Ends.bind_iff, ends_modifyMatrix]
    refine Ends.of_unfailing (ends_quiet ⟨hlp.settle (ConstraintMatrix.Sound.congr
      (m := t.matrix) rfl ht.matrix.sound) ⟨ht.matrix.undisturbed.live,
      ht.matrix.undisturbed.amount, ht.matrix.undisturbed.linked⟩ ht.matrix.places ?_ ht.solver
      rfl rfl ?_ ?_, balanced_of_places ht.matrix.places rfl ht.rows⟩
      (.bind quiet_desync fun _ => quiet_markUnsolved)) ?_
    · rw [show t.columns = lp.columns.extract 0 size from ht.columns,
        show t.rows = lp.rows from ht.rows]
      exact hlp.placed.leaveColumns fun c => by simp only [mem_backwards]
    · rw [show t.columns = lp.columns.extract 0 size from ht.columns]
      exact ht.matrix.firstChangedColumn ▸ hlp.columnsAgree.truncate_left size
    · rw [show t.rows = lp.rows from ht.rows]
      exact ht.matrix.firstChangedRow ▸ hlp.rowsAgree
    · simp [desync, markUnsolved]

theorem ends_shrinkColumns (hlp : lp.Coherent) (size : Nat) :
    Ends (shrinkColumns size) lp (fun _ t => Carried Undisturbed lp t) fun _ _ => False :=
  (ends_shrinkColumns_balanced hlp size).mono_ok fun _ _ h => h.1

theorem along_shrinkColumns (size : Nat) :
    Along (Carries Undisturbed) (shrinkColumns size : RelaxationM σ Unit) :=
  along_carries fun _ hlp => (ends_shrinkColumns hlp size).mono (fun _ _ h => h)
    fun _ _ h => h.elim

/-! ## Rows -/

/-- A row gets another use, and is active from now on. -/
theorem balanced_of_entered (hr : (lp.matrix.places.row r).isSome = true) (hout : r ∉ lp.rows)
    (hplaces : t.matrix.places =
      (lp.matrix.places.modifyUses r (· + 1)).moveRow r (some lp.rows.size))
    (hrows : t.rows = lp.rows.push r) : Balanced lp t := by
  intro s
  have huses := Places.uses_modifyRow hr (fun place => { place with nrUses := place.nrUses + 1 })
    (· + 1) (fun _ => rfl) s
  rw [← ConstraintMatrix.uses_places, ← ConstraintMatrix.uses_places, hplaces, Places.uses_moveRow,
    Places.modifyUses, huses, share, share, hrows]
  by_cases hs : s = r
  · subst hs
    simp [hout]
  · simp [hs]

/-- A row in order that is not active is captured and appended to the active linear program. -/
theorem ends_enterRow {row : Row} (hlp : lp.Coherent) (hrow : lp.matrix.row? r = some row)
    (hordered : row.delayed = false) (hinactive : row.isActive = false) :
    Ends (do
      captureRow r
      onMatrix (ConstraintMatrix.setRowActivePosition r (some (← get).rows.size))
      modify fun lp => { lp with rows := lp.rows.push r }
      desync
      losePrimal
      markUnsolved : RelaxationM σ Unit) lp
      (fun _ t => Carried Undisturbed lp t ∧ Balanced lp t) E := by
  have hplace := ConstraintMatrix.row_places hrow
  have hnone : row.place.active = none := by simpa [Row.isActive, Row.place] using hinactive
  have hout : r ∉ lp.rows := by
    intro hmem
    have hsome := hlp.placed.rows.isSome_of_mem trivial hmem
    rw [Places.activeRow, hplace, Option.bind_some, hnone] at hsome
    cases hsome
  have hused := hlp.sound.relocated_modifyRow r (g := fun place =>
      { place with nrUses := place.nrUses + 1 })
    (f := fun row => { row with nrUses := row.nrUses + 1 }) (fun _ => rfl) fun _ => rfl
  have hrow' : (lp.matrix.modifyRow r fun row => { row with nrUses := row.nrUses + 1 }).row? r =
      some { row with nrUses := row.nrUses + 1 } := by
    rw [ConstraintMatrix.row?_modifyRow, if_pos rfl, hrow, Option.map_some]
  rw [Ends.bind_iff, captureRow, ends_updateRow hrow, Ends.bind_iff, Ends.get_iff,
    Ends.bind_iff, ends_onMatrix]
  refine (ConstraintMatrix.ends_moveRow hused.sound (by rw [ConstraintMatrix.Has, hrow']; rfl)
    fun _ => (ConstraintMatrix.inOrder_row hrow').mpr hordered).mono_ok fun _ m hm => ?_
  rw [Ends.bind_iff, Ends.modify_iff]
  have hplaced : Placed ((lp.matrix.places.modifyUses r (· + 1)).moveRow r (some lp.rows.size))
      lp.columns (lp.rows.push r) :=
    (hlp.placed.use r).enterRow (Places.row_modifyRow_self hplace) hnone
  have hmoved := hused.trans hm
  rw [hused.places] at hmoved
  have hcarried : Carried Undisturbed lp { lp with matrix := m, rows := lp.rows.push r } := by
    refine hlp.settle hmoved.sound hmoved.undisturbed hmoved.places hplaced rfl rfl rfl ?_ ?_
    · exact hmoved.firstChangedColumn ▸ hlp.columnsAgree
    · exact hmoved.firstChangedRow ▸ hlp.rowsAgree.push_left r
  have hbalanced : Balanced lp { lp with matrix := m, rows := lp.rows.push r } :=
    balanced_of_entered (by rw [hplace]; rfl) hout hmoved.places rfl
  exact (ends_quiet ⟨hcarried, hbalanced⟩ (.bind quiet_desync fun _ => .bind quiet_losePrimal
    fun _ => quiet_markUnsolved)).of_unfailing (by simp [desync, losePrimal, markUnsolved])

/-- If a row cannot be added, then it was merged at most. -/
theorem ends_addRow_balanced (hlp : lp.Coherent) (r : RowRef) :
    Ends (addRow r) lp (fun _ t => Carried Undisturbed lp t ∧ Balanced lp t)
      fun _ t => (Carried Undisturbed lp t ∧ Balanced lp t) ∧ ∃ m, t = { lp with matrix := m } := by
  rw [addRow, Ends.bind_iff, ends_onMatrix]
  cases hrow : lp.matrix.row? r with
  | none =>
    rw [ConstraintMatrix.ends_forceOrder_missing hrow]
    exact ⟨⟨hlp.carried, refl lp⟩, _, rfl⟩
  | some row =>
    refine (ConstraintMatrix.ends_forceOrder hlp.sound hrow).mono (fun _ m hm => ?_)
      fun _ m hm => by rw [hm]; exact ⟨⟨hlp.carried, refl lp⟩, _, rfl⟩
    obtain ⟨hrevised, horder⟩ := hm
    have hunmoved : Unmoved lp { lp with matrix := m } :=
      ⟨hrevised.stays, rfl, rfl, fun _ => refl _⟩
    have hforced : Carried Undisturbed lp { lp with matrix := m } := hunmoved.carries hrevised hlp
    obtain ⟨row₁, hrow₁⟩ := hrevised.stays.exists_row hrow
    rw [Ends.bind_iff, ends_getRow hrow₁, Ends.ite_iff]
    refine ⟨fun _ => ⟨⟨hforced, hunmoved.balanced⟩, _, rfl⟩, fun hinactive => ?_⟩
    exact (ends_enterRow hforced.coherent hrow₁ ((ConstraintMatrix.inOrder_row hrow₁).mp horder)
      (Bool.eq_false_iff.mpr hinactive)).mono_ok fun _ _ h =>
        ⟨hforced.trans h.1, IsTrans.trans _ _ _ hunmoved.balanced h.2⟩

theorem ends_addRow (hlp : lp.Coherent) (r : RowRef) :
    Ends (addRow r) lp (fun _ t => Carried Undisturbed lp t)
      fun _ t => Carried Undisturbed lp t ∧ ∃ m, t = { lp with matrix := m } :=
  (ends_addRow_balanced hlp r).mono (fun _ _ h => h.1) fun _ _ h => ⟨h.1.1, h.2⟩

theorem along_addRow (r : RowRef) : Along (Carries Undisturbed) (addRow r : RelaxationM σ Unit) :=
  along_carries fun _ hlp => (ends_addRow hlp r).mono (fun _ _ h => h) fun _ _ h => h.1

/-- A row gets another position in the active linear program, or leaves it. -/
theorem Relocates.ends_moveRow (h : Relocates lp t p) (hr : (p.row r).isSome = true)
    {position : Option Nat} (hactive : position.isSome = true → (p.activeRow r).isSome = true) :
    Ends (onMatrix (ConstraintMatrix.setRowActivePosition r position)) t
      (fun _ u => Relocates lp u (p.moveRow r position)) E := by
  obtain rfl := h.matrix.places
  rw [ConstraintMatrix.isSome_row_places] at hr
  rw [← ConstraintMatrix.isActive_row_places] at hactive
  rw [ends_onMatrix]
  exact (ConstraintMatrix.ends_moveRow h.matrix.sound hr fun hposition =>
    h.matrix.sound.tidy.inOrder (hactive hposition)).mono_ok fun _ m hm =>
      h.trans (relocates_matrix hm)

/-- The list of active rows was replaced, and the rows moved or were released accordingly. -/
theorem Coherent.ends_settleRows (hlp : lp.Coherent) {rows : Array RowRef} {n : Nat}
    {removed : List RowRef} (ht : Relocates { lp with rows } t q)
    (hq : Shifted lp.matrix.places q) (hrows : Indexes (fun _ => True) q.activeRow rows)
    (hagree : AgreeBelow (min lp.matrix.firstChangedRow n) rows lp.matrix.solverRows)
    (hremoved : (rows.toList ++ removed).Perm lp.rows.toList)
    (huses : ∀ r, q.uses r =
      if r ∈ removed then lp.matrix.places.uses r - 1 else lp.matrix.places.uses r) :
    Ends (do
      modifyMatrix fun m => { m with firstChangedRow := min m.firstChangedRow n }
      desync
      markUnsolved : RelaxationM σ Unit) t
      (fun _ u => Carried Undisturbed lp u ∧ Balanced lp u) E := by
  have hsolverColumns : q.solverColumns = lp.matrix.solverColumns := by
    rw [hq.frame]
    rfl
  have hsolverRows : q.solverRows = lp.matrix.solverRows := by
    rw [hq.frame]
    rfl
  have htcolumns : t.columns = lp.columns := ht.columns
  have htrows : t.rows = rows := ht.rows
  rw [Ends.bind_iff, ends_modifyMatrix]
  refine Ends.of_unfailing (ends_quiet ⟨hlp.settle (ConstraintMatrix.Sound.congr
    (m := t.matrix) rfl ht.matrix.sound) ⟨ht.matrix.undisturbed.live,
    ht.matrix.undisturbed.amount, ht.matrix.undisturbed.linked⟩ ht.matrix.places ?_ ht.solver
    hsolverColumns hsolverRows ?_ ?_, hlp.balanced_of_removed removed ?_ ?_⟩
    (.bind quiet_desync fun _ => quiet_markUnsolved)) ?_
  · rw [htcolumns, htrows]
    exact hlp.placed.shift hq hrows
  · rw [htcolumns]
    exact ht.matrix.firstChangedColumn ▸ hlp.columnsAgree
  · rw [htrows]
    exact ht.matrix.firstChangedRow ▸ hagree
  · rwa [htrows]
  · intro r
    rw [← huses]
    exact congrArg (Places.uses · r) ht.matrix.places
  · simp [desync, markUnsolved]

/-- What is cut off a list, and what remains. -/
theorem perm_extract_backwards {α : Type} (xs : Array α) (size : Nat) :
    ((xs.extract 0 size).toList ++ backwards xs size).Perm xs.toList := by
  refine ((List.reverse_perm _).append_left _).trans (List.Perm.of_eq ?_)
  have hsize : xs.size - size = (xs.toList.drop size).length := by simp
  simp only [Array.toList_extract, List.extract_eq_take_drop, List.drop_zero, Nat.sub_zero]
  rw [hsize, List.take_length, List.take_append_drop]

/-- All rows behind a position leave the active linear program and are released. -/
theorem ends_shrinkRows_balanced (hlp : lp.Coherent) (size : Nat) :
    Ends (shrinkRows size) lp (fun _ t => Carried Undisturbed lp t ∧ Balanced lp t)
      fun _ _ => False := by
  have hnodup := nodup_backwards hlp.placed.rows.nodup size
  rw [shrinkRows, Ends.bind_iff, Ends.get_iff, Ends.ite_iff]
  refine ⟨fun _ => ?_, fun _ => ⟨hlp.carried, refl lp⟩⟩
  rw [Ends.bind_iff, Ends.modify_iff, Ends.bind_iff, ← backwards]
  refine (Ends.forIn_list (fun done t =>
    Relocates { lp with rows := lp.rows.extract 0 size } t (lp.matrix.places.withdraw done) ∧
      Withdrawn lp.matrix.places (lp.matrix.places.withdraw done) done) ?_ ?_).mono_ok
    fun _ t ht => ?_
  · exact ⟨relocates_refl hlp.sound, .refl hlp.placed.used⟩
  · rintro done r rest t hxs ⟨ht, hq⟩
    have hmem : r ∈ backwards lp.rows size := by
      rw [hxs]
      simp
    obtain ⟨i, hi⟩ := Array.mem_iff_getElem?.mp (mem_of_mem_backwards hmem)
    obtain ⟨place, hplace⟩ := hq.exists_row ((hlp.placed.rows r trivial i).mpr hi)
      (not_mem_of_nodup hnodup hxs)
    have hleft : Withdrawn _ _ [r] := .moveRow hq.shifted.used hplace
    have hinactive := hleft.active r
    rw [if_pos List.mem_cons_self] at hinactive
    rw [Ends.bind_iff]
    refine (ht.ends_moveRow (by rw [hplace]; rfl) (by simp)).mono_ok fun _ u hu => ?_
    rw [Ends.bind_iff]
    refine (hu.ends_releaseRow hleft.shifted.used (Places.row_modifyRow_self hplace)).mono
      (fun _ w hw => ?_) fun _ w hw => (hw.2.2 hinactive).elim
    rw [Ends.pure_iff, Places.withdraw_concat]
    refine ⟨rfl, hw.1, ?_⟩
    have hgone := (hq.trans hleft).trans (.release hleft.shifted.used hw.2)
    rwa [List.append_nil] at hgone
  · obtain ⟨ht, hq⟩ := ht
    refine hlp.ends_settleRows ht hq.shifted (hlp.placed.rows.truncate fun r _ => ⟨trivial, ?_⟩)
      (hlp.rowsAgree.truncate_left size) (perm_extract_backwards lp.rows size)
      (Places.uses_withdraw hnodup lp.matrix.places)
    rw [hq.active]
    simp only [mem_backwards]

theorem ends_shrinkRows (hlp : lp.Coherent) (size : Nat) :
    Ends (shrinkRows size) lp (fun _ t => Carried Undisturbed lp t) fun _ _ => False :=
  (ends_shrinkRows_balanced hlp size).mono_ok fun _ _ h => h.1

theorem along_shrinkRows (size : Nat) :
    Along (Carries Undisturbed) (shrinkRows size : RelaxationM σ Unit) :=
  along_carries fun _ hlp => (ends_shrinkRows hlp size).mono (fun _ _ h => h) fun _ _ h => h.elim

/-- Rows move one after the other. No row moves twice, and those that get a position had one. -/
theorem Relocates.ends_seatRows {α : Type} {xs : List α} (move : α → RowRef × Option Nat)
    {moves : List (RowRef × Option Nat)} (h : Relocates lp t (p.seat moves))
    (hnodup : ((moves ++ xs.map move).map (·.1)).Nodup)
    (hlive : ∀ x ∈ xs, (p.row (move x).1).isSome = true)
    (hactive : ∀ x ∈ xs, (move x).2.isSome = true → (p.activeRow (move x).1).isSome = true) :
    Ends (forIn xs ⟨⟩ fun x _ => do
        onMatrix (ConstraintMatrix.setRowActivePosition (move x).1 (move x).2)
        pure (ForInStep.yield PUnit.unit)) t
      (fun _ u => Relocates lp u (p.seat (moves ++ xs.map move))) E := by
  refine Ends.forIn_list (fun done u => Relocates lp u (p.seat (moves ++ done.map move))) ?_
    fun done x rest u hxs hu => ?_
  · simpa using h
  have hx : x ∈ xs := by simp [hxs]
  have hfresh : ∀ y ∈ moves ++ done.map move, y.1 ≠ (move x).1 := by
    have hsplit : (moves ++ xs.map move).map (·.1) =
        (moves ++ done.map move).map (·.1) ++ (move x).1 :: (rest.map move).map (·.1) := by
      simp [hxs]
    exact fun y hy heq => not_mem_of_nodup hnodup hsplit (heq ▸ List.mem_map_of_mem hy)
  rw [Ends.bind_iff]
  refine (hu.ends_moveRow ?_ fun hposition => ?_).mono_ok fun _ w hw => ?_
  · rw [Places.isSome_row_seat]
    exact hlive x hx
  · rw [Places.activeRow_seat_of_not_mem hfresh]
    exact hactive x hx hposition
  · rw [Ends.pure_iff, List.map_append, ← List.append_assoc, Places.seat_append]
    exact ⟨rfl, hw⟩

/-- Rows that are not active are released, one after the other. -/
theorem Relocates.ends_releaseRows {xs : List RowRef} (h : Relocates lp t p) (hnodup : xs.Nodup)
    (hused : ∀ {r place}, p.row r = some place → 0 < place.nrUses)
    (hlive : ∀ r ∈ xs, (p.row r).isSome = true) (hinactive : ∀ r ∈ xs, p.activeRow r = none) :
    Ends (forIn xs ⟨⟩ fun r _ => do
        releaseRow r
        pure (ForInStep.yield PUnit.unit)) t
      (fun _ u => Relocates lp u (p.releaseAll xs) ∧ Withdrawn p (p.releaseAll xs) []) E := by
  refine (Ends.forIn_list (fun done u => Relocates lp u (p.releaseAll done) ∧
    Withdrawn p (p.releaseAll done) [] ∧ ∀ r, r ∉ done → (p.releaseAll done).row r = p.row r)
    ⟨h, .refl hused, fun _ _ => rfl⟩ ?_).mono_ok fun _ _ ⟨hu, hq, _⟩ => ⟨hu, hq⟩
  rintro done r rest u hxs ⟨hu, hq, hrest⟩
  have hr : r ∈ xs := by simp [hxs]
  have hsame : (p.releaseAll done).row r = p.row r := hrest r (not_mem_of_nodup hnodup hxs)
  obtain ⟨place, hplace⟩ := Option.isSome_iff_exists.mp (hlive r hr)
  have hnone : (p.releaseAll done).activeRow r = none := by
    rw [hq.active, if_neg List.not_mem_nil]
    exact hinactive r hr
  rw [Ends.bind_iff]
  refine (hu.ends_releaseRow hq.shifted.used (hsame.trans hplace)).mono (fun _ w hw => ?_)
    fun _ w hw => (hw.2.2 hnone).elim
  rw [Ends.pure_iff, Places.releaseAll_concat]
  refine ⟨rfl, hw.1, hq.trans (.release hq.shifted.used hw.2), fun s hs => ?_⟩
  simp only [List.mem_append, List.mem_singleton, not_or] at hs
  rw [Places.row_release_of_ne hs.2, hrest s hs.1]

/-- The marked rows leave the active linear program and are released, and the others close up. -/
theorem ends_deleteRows_balanced (hlp : lp.Coherent) (mask : Array Bool) :
    Ends (deleteRows mask) lp (fun _ t => Carried Undisturbed lp t ∧ Balanced lp t)
      fun _ t => t = lp ∧ mask.size ≠ lp.rows.size := by
  rw [deleteRows, Ends.bind_iff, Ends.get_iff, Ends.ite_iff]
  refine ⟨fun hsize => ⟨rfl, hsize⟩, fun hsize => ?_⟩
  split
  · exact ⟨hlp.carried, refl lp⟩
  next first hfirst =>
  have hsize : mask.toList.length = lp.rows.toList.length := by simpa using hsize
  have htake := take_unmarked hsize hfirst
  have hperm := perm_unmarked_marked hsize
  set kept := ((lp.rows.toList.zip mask.toList).filter (!·.2)).map (·.1)
  set removed := ((lp.rows.toList.zip mask.toList).filter (·.2)).map (·.1)
  have hindexes := hlp.placed.rows.seat_closingMoves hperm htake
  have hseat := Shifted.seat hlp.placed.used (closingMoves kept removed first)
  have hnodup : (kept ++ removed).Nodup := hperm.nodup_iff.mpr hlp.placed.rows.nodup
  have hmem {r : RowRef} (hr : r ∈ kept ++ removed) : r ∈ lp.rows :=
    Array.mem_toList_iff.mp (hperm.mem_iff.mp hr)
  have hlive {r : RowRef} (hr : r ∈ kept ++ removed) : (lp.matrix.places.row r).isSome = true :=
    Places.isSome_row_of_mem hlp.placed.rows (hmem hr)
  have hkept {x : RowRef × Nat} (hx : x ∈ (kept.drop first).zipIdx first) : x.1 ∈ kept ++ removed :=
    List.mem_append_left _ (List.mem_of_mem_drop
      (List.zipIdx_map_fst first (kept.drop first) ▸ List.mem_map_of_mem hx))
  rw [Ends.bind_iff, Ends.modify_iff, Ends.bind_iff]
  -- the marked rows leave
  have hstart : Relocates { lp with rows := kept.toArray } { lp with rows := kept.toArray }
      (lp.matrix.places.seat []) := relocates_refl hlp.sound
  refine (hstart.ends_seatRows (fun r : RowRef => (r, none)) ?_
    (fun r hr => hlive (List.mem_append_right _ hr)) (by simp)).mono_ok fun _ t ht => ?_
  · simpa [Function.comp_def] using (List.nodup_append.mp hnodup).2.1
  -- the other rows close up
  rw [Ends.bind_iff]
  refine (ht.ends_seatRows (fun x : RowRef × Nat => (x.1, some x.2)) ?_
    (fun x hx => hlive (hkept hx)) fun x hx _ => ?_).mono_ok fun _ t ht => ?_
  · exact nodup_closingMoves hnodup first
  · exact hlp.placed.rows.isSome_of_mem trivial (hmem (hkept hx))
  rw [List.nil_append, ← closingMoves] at ht
  -- the marked rows are released
  rw [Ends.bind_iff]
  refine (ht.ends_releaseRows (List.nodup_append.mp hnodup).2.1 hseat.used (fun r hr => ?_)
    fun r hr => ?_).mono_ok fun _ u hu => ?_
  · rw [Places.isSome_row_seat]
    exact hlive (List.mem_append_right _ hr)
  · exact hindexes.position_eq_none trivial fun hr' =>
      (List.nodup_append.mp hnodup).2.2 r (List.mem_toArray.mp hr') r hr rfl
  obtain ⟨hu, hq⟩ := hu
  refine hlp.ends_settleRows hu (hseat.trans hq.shifted)
    (hindexes.congr fun r _ => ⟨trivial, by simp [hq.active]⟩) ?_ hperm fun r => ?_
  · have hfront : kept.toArray.extract 0 first = lp.rows.extract 0 first := by
      simpa [← Array.toList_inj, List.extract_eq_take_drop] using htake
    exact (hfront ▸ hlp.rowsAgree.truncate_left first).of_truncate_left
  · rw [Places.uses_releaseAll (List.nodup_append.mp hnodup).2.1, Places.uses_seat]

theorem ends_deleteRows (hlp : lp.Coherent) (mask : Array Bool) :
    Ends (deleteRows mask) lp (fun _ t => Carried Undisturbed lp t) fun _ t => t = lp :=
  (ends_deleteRows_balanced hlp mask).mono (fun _ _ h => h.1) fun _ _ h => h.1

theorem along_deleteRows (mask : Array Bool) :
    Along (Carries Undisturbed) (deleteRows mask : RelaxationM σ Unit) :=
  along_carries fun _ hlp => (ends_deleteRows hlp mask).mono (fun _ _ h => h) fun _ _ h => by
    rw [h]
    exact hlp.carried

theorem along_clear : Along (Carries Undisturbed) (clear : RelaxationM σ Unit) :=
  .bind (along_shrinkColumns 0) fun _ => along_shrinkRows 0

end Relaxation

end CertifiedLp
