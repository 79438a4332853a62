import Mathlib
import CertifiedLp.Proofs.Matrix.Moving

/-!
# Places in the solver

Lines are detached from the solver, all behind a position at once, and attached behind the last one.
Both keep the lines placed. The solver is brought up to date from the front to the back: before a
line is attached, the lines in the solver are the first active ones, and the line is the next of
these.
-/

namespace CertifiedLp

namespace Places

variable {p : Places} {c : ColumnRef} {r s : RowRef}

/-- Columns are not in the solver any more. -/
def detachColumns (p : Places) (gone : List ColumnRef) : Places :=
  { p with solverColumn := fun c => if c ∈ gone then none else p.solverColumn c }

/-- Rows are not in the solver any more. -/
def detachRows (p : Places) (gone : List RowRef) : Places :=
  { p with
    row := fun r => if r ∈ gone then (p.row r).map ({ · with solver := none }) else p.row r }

/-- Put a column behind those in the solver. -/
def attachColumn (p : Places) (c : ColumnRef) : Places :=
  { p with
    solverColumn := fun d => if d = c then some p.solverColumns.size else p.solverColumn d
    solverColumns := p.solverColumns.push c }

/-- Put a row behind those in the solver. -/
def attachRow (p : Places) (r : RowRef) : Places :=
  { p.modifyRow r ({ · with solver := some p.solverRows.size }) with
    solverRows := p.solverRows.push r }

theorem detachColumns_nil (p : Places) : p.detachColumns [] = p := by simp [detachColumns]

theorem detachRows_nil (p : Places) : p.detachRows [] = p := by simp [detachRows]

theorem exists_of_row_detachRows {gone : List RowRef} {place : RowPlace}
    (h : (p.detachRows gone).row r = some place) :
    ∃ old, p.row r = some old ∧ place.active = old.active ∧ place.nrUses = old.nrUses ∧
      place.solver = if r ∈ gone then none else old.solver := by
  rw [detachRows] at h
  simp only at h
  split at h
  · next hgone =>
    obtain ⟨old, hold, rfl⟩ := Option.map_eq_some_iff.mp h
    exact ⟨old, hold, rfl, rfl, (if_pos hgone).symm⟩
  · next hgone => exact ⟨place, h, rfl, rfl, (if_neg hgone).symm⟩

theorem isSome_row_detachRows (p : Places) (gone : List RowRef) (r : RowRef) :
    ((p.detachRows gone).row r).isSome = (p.row r).isSome := by
  rw [detachRows]
  simp only
  split
  · rw [Option.isSome_map]
  · rfl

theorem activeRow_detachRows (p : Places) (gone : List RowRef) (r : RowRef) :
    (p.detachRows gone).activeRow r = p.activeRow r := by
  rw [activeRow, activeRow, detachRows]
  simp only
  split
  · cases p.row r <;> rfl
  · rfl

theorem solverRow_detachRows (p : Places) (gone : List RowRef) (r : RowRef) :
    (p.detachRows gone).solverRow r = if r ∈ gone then none else p.solverRow r := by
  rw [solverRow, solverRow, detachRows]
  simp only
  split
  · cases p.row r <;> rfl
  · rfl

theorem activeRow_attachRow (p : Places) (r s : RowRef) :
    (p.attachRow r).activeRow s = p.activeRow s :=
  activeRow_modifyRow (p := p) (f := fun place => { place with solver := some p.solverRows.size })
    (fun _ => rfl) s

theorem solverRow_attachRow (hs : (p.row s).isSome = true) :
    (p.attachRow r).solverRow s = if s = r then some p.solverRows.size else p.solverRow s := by
  obtain ⟨place, hplace⟩ := Option.isSome_iff_exists.mp hs
  rw [solverRow, solverRow, attachRow, modifyRow]
  simp only [hplace]
  split <;> rfl

end Places

/-- The next one in the longer of two lists is not in the shorter list. -/
theorem Indexes.position_eq_none_of_next {κ : Type} {among : κ → Prop}
    {position activePosition : κ → Option Nat} {list active : Array κ} {k : κ}
    (h : Indexes among position list) (hactive : Indexes (fun _ => True) activePosition active)
    (hagree : AgreeBelow list.size active list) (hnext : active[list.size]? = some k)
    (hk : among k) : position k = none := by
  rw [Option.eq_none_iff_forall_ne_some]
  intro i hi
  have hlist := (h k hk i).mp hi
  have hlt := (Array.getElem?_eq_some_iff.mp hlist).1
  exact Nat.ne_of_lt hlt (hactive.injective trivial ((hagree.agree i hlt).trans hlist) hnext)

namespace Placed

variable {p : Places} {columns : Array ColumnRef} {rows : Array RowRef} {c : ColumnRef} {r : RowRef}

/-- The solver loses the columns behind a position. -/
theorem detachColumns (h : Placed p columns rows) (n : Nat) :
    Placed ({ p with solverColumns := p.solverColumns.extract 0 n }.detachColumns
      (p.solverColumns.extract n p.solverColumns.size).toList) columns rows :=
  { h with solverColumns := h.solverColumns.truncate fun c _ => ⟨trivial, by
      simp only [Places.detachColumns, Array.mem_toList_iff]⟩ }

/-- The solver loses the rows behind a position. -/
theorem detachRows (h : Placed p columns rows) (n : Nat) :
    Placed ({ p with solverRows := p.solverRows.extract 0 n }.detachRows
      (p.solverRows.extract n p.solverRows.size).toList) columns rows where
  columns := h.columns
  rows := h.rows.congr fun r _ => ⟨trivial, Places.activeRow_detachRows _ _ r⟩
  solverColumns := h.solverColumns
  solverRows := by
    refine h.solverRows.truncate fun r hr => ⟨?_, ?_⟩
    · rwa [Places.isSome_row_detachRows] at hr
    · rw [Places.solverRow_detachRows]
      simp only [Array.mem_toList_iff]
      rfl
  known r hr := by
    obtain ⟨i, _, hi⟩ := Array.mem_extract_iff_getElem.mp hr
    exact h.known r (hi ▸ Array.getElem_mem _)
  used hr := by
    obtain ⟨old, hold, -, huses, -⟩ := Places.exists_of_row_detachRows hr
    exact huses ▸ h.used hold

/-- The next active column is attached. -/
theorem attachColumn (h : Placed p columns rows)
    (hagree : AgreeBelow p.solverColumns.size columns p.solverColumns)
    (hnext : columns[p.solverColumns.size]? = some c) :
    Placed (p.attachColumn c) columns rows :=
  have hnone := h.solverColumns.position_eq_none_of_next h.columns hagree hnext
  { h with solverColumns := h.solverColumns.push hnone fun _ _ => rfl }

/-- The next active row is attached. -/
theorem attachRow (h : Placed p columns rows)
    (hagree : AgreeBelow p.solverRows.size rows p.solverRows)
    (hnext : rows[p.solverRows.size]? = some r) (hknown : r.index < p.nrRows) :
    Placed (p.attachRow r) columns rows where
  columns := h.columns
  rows := h.rows.congr fun s _ => ⟨trivial, p.activeRow_attachRow r s⟩
  solverColumns := h.solverColumns
  solverRows := by
    refine (h.solverRows.push (h.solverRows.position_eq_none_of_next h.rows hagree hnext)
      fun s hs => Places.solverRow_attachRow hs).congr fun s hs => ⟨?_, rfl⟩
    exact (Places.isSome_row_modifyRow ..).symm.trans hs
  known s hs := by
    rcases Array.mem_push.mp hs with hs | rfl
    · exact h.known s hs
    · exact hknown
  used {s place} hs := by
    obtain ⟨old, hold, rfl⟩ := Places.exists_of_row_modifyRow hs
    have hused := h.used hold
    split
    · exact hused
    · exact hused

end Placed

/-! ## Lines of a matrix -/

namespace ConstraintMatrix

variable {m : ConstraintMatrix} {c : ColumnRef} {r : RowRef} {p : Places}

/-- A column that is in the solver exists. -/
theorem has_of_solverColumn {i : Nat} (h : m.places.solverColumn c = some i) :
    m.Has (.column c) := by
  have hposition : (m.column c).solverPosition = some i := h
  refine lt_size_of_column_ne fun hdefault => ?_
  rw [hdefault] at hposition
  cases hposition

/-- A change of a column that concerns its position in the solver only. -/
theorem places_modifyColumn_solver (hc : m.Has (.column c)) {f : Column → Column}
    (position : Option Nat)
    (hactive : ∀ column, (f column).activePosition = column.activePosition)
    (hsolver : ∀ column, (f column).solverPosition = position) :
    (m.modifyColumn c f).places = { m.places with
      solverColumn := fun d => if d = c then position else m.places.solverColumn d } := by
  rw [places, places, Places.mk.injEq]
  refine ⟨funext fun d => ?_, funext fun d => ?_, rfl, rfl, rfl, rfl⟩
  · rw [column_modifyColumn hc]
    split
    · exact hactive _
    · rfl
  · rw [column_modifyColumn hc]
    split
    · exact hsolver _
    · rfl

theorem Sound.relocated_detachColumn (hm : m.Sound) (hc : m.Has (.column c))
    {gone : List ColumnRef} (h : m.places = p.detachColumns gone) :
    Relocated m (m.modifyColumn c Column.detach) (p.detachColumns (gone ++ [c])) := by
  refine hm.relocated_of_shape (shape_modifyColumn m c fun _ => rfl) ?_ rfl rfl
  rw [places_modifyColumn_solver (f := Column.detach) hc none (fun _ => rfl)
    fun _ => rfl, h, Places.detachColumns, Places.detachColumns, Places.mk.injEq]
  refine ⟨rfl, funext fun d => ?_, rfl, rfl, rfl, rfl⟩
  by_cases hd : d = c <;> by_cases hgone : d ∈ gone <;> simp [hd, hgone]

theorem Sound.relocated_detachRow (hm : m.Sound) {gone : List RowRef}
    (h : m.places = p.detachRows gone) :
    Relocated m (m.modifyRow r Row.detach) (p.detachRows (gone ++ [r])) := by
  have hmodify := hm.relocated_modifyRow r (f := Row.detach)
    (g := fun place => { place with solver := none }) (fun _ => rfl) fun _ => rfl
  suffices hplaces : m.places.modifyRow r (fun place => { place with solver := none }) =
      p.detachRows (gone ++ [r]) from hplaces ▸ hmodify
  rw [h, Places.detachRows, Places.detachRows, Places.modifyRow, Places.mk.injEq]
  refine ⟨rfl, rfl, funext fun s => ?_, rfl, rfl, rfl⟩
  rcases eq_or_ne s r with rfl | hs
  · by_cases hgone : s ∈ gone <;> simp [hgone, Function.comp_def]
  · simp [hs]

/-- A column is attached behind those in the solver. -/
def withAttachedColumn (m : ConstraintMatrix) (c : ColumnRef) : ConstraintMatrix :=
  { m.modifyColumn c (·.attach m.solverColumns.size) with
    solverColumns := m.solverColumns.push c }

/-- A row is attached behind those in the solver. -/
def withAttachedRow (m : ConstraintMatrix) (r : RowRef) : ConstraintMatrix :=
  { m.modifyRow r (·.attach m.solverRows.size) with solverRows := m.solverRows.push r }

theorem Sound.relocated_attachColumn (hm : m.Sound) (hc : m.Has (.column c)) :
    Relocated m (m.withAttachedColumn c) (m.places.attachColumn c) := by
  refine hm.relocated_of_shape
    (shape_modifyColumn m c (g := (·.attach m.solverColumns.size)) fun _ => rfl) ?_ rfl rfl
  have hplaces := places_modifyColumn_solver (f := (·.attach m.solverColumns.size)) hc
    (some m.solverColumns.size) (fun _ => rfl) fun _ => rfl
  exact congrArg (fun q : Places => { q with solverColumns := m.solverColumns.push c }) hplaces

theorem Sound.relocated_attachRow (hm : m.Sound) :
    Relocated m (m.withAttachedRow r) (m.places.attachRow r) := by
  refine hm.relocated_of_shape
    (shape_modifyRow m r (g := (·.attach m.solverRows.size)) fun _ => rfl) ?_ rfl rfl
  have hplaces := places_modifyRow m r (f := (·.attach m.solverRows.size))
    (g := fun place => { place with solver := some m.solverRows.size }) fun _ => rfl
  exact congrArg (fun q : Places => { q with solverRows := m.solverRows.push r }) hplaces

end ConstraintMatrix

end CertifiedLp
