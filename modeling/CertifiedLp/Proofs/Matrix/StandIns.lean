import Mathlib
import CertifiedLp.Proofs.Matrix.Mapping
import CertifiedLp.Proofs.Matrix.Orderly
import CertifiedLp.Proofs.Matrix.Storing

/-!
# Values that stand in for others

The check of a matrix can only tell whether values are zero and whether they are the same. Seen
through an injective function that keeps zero, a matrix is therefore orderly if and only if it is
orderly itself, and its content is what the function makes of the content.

`Extended.standIn` is such a function, and all of its values are rational numbers.
-/

namespace CertifiedLp

namespace Extended

/-- A rational number that stands for the value: there is room for the infinities next to zero. -/
def standIn : Extended → Extended
  | negInf => finite (-1)
  | finite q => finite (if 0 < q then q + 1 else if q < 0 then q - 1 else 0)
  | posInf => finite 1

theorem isFinite_standIn (x : Extended) : x.standIn.isFinite = true := by
  cases x <;> rfl

theorem standIn_zero : standIn 0 = 0 := rfl

theorem standIn_injective : Function.Injective standIn := by
  intro x y h
  cases x <;> cases y <;> simp only [standIn, finite_inj] at h <;> grind

end Extended

namespace ConstraintMatrix

variable {m : ConstraintMatrix} {f : Extended → Extended}

/-! ## Seeing a matrix through a function -/

theorem cells_mapValues (f : Extended → Extended) (m : ConstraintMatrix) (x : Line) :
    (m.mapValues f).grid.cells x = (m.grid.cells x).map (Entry.mapValue f) := by
  have hname {κ : Type} (name : κ → Line) (es : Array (Entry κ)) :
      (es.map (Entry.mapValue f)).map (Entry.map name) =
        (es.map (Entry.map name)).map (Entry.mapValue f) := by
    rw [Array.map_map, Array.map_map]
    rfl
  cases x with
  | column c =>
    rw [cells_column, cells_column, column_mapValues]
    exact hname Line.row _
  | row r =>
    cases hrow : m.row? r with
    | none => simp [grid, hrow]
    | some row =>
      have hrow' : (m.mapValues f).row? r = some (row.mapValues f) := by
        rw [row?_mapValues, hrow, Option.map_some]
      rw [cells_row hrow, cells_row hrow']
      exact hname Line.column _

theorem cell_mapValues (f : Extended → Extended) (m : ConstraintMatrix) (x : Line) (i : Nat) :
    (m.mapValues f).grid.cell x i = (m.grid.cell x i).map (Entry.mapValue f) := by
  rw [Grid.cell, cells_mapValues, Array.getElem?_map]
  rfl

theorem stored_mapValues (f : Extended → Extended) (m : ConstraintMatrix) (x y : Line) :
    (m.mapValues f).grid.stored x y = (m.grid.stored x y).map (Prod.map f id) := by
  rw [Grid.stored, cells_mapValues, Array.toList_map, List.filter_map, List.map_map, Grid.stored,
    Multiset.map_coe, List.map_map]
  rfl

theorem content_mapValues (f : Extended → Extended) (m : ConstraintMatrix) (c : ColumnRef)
    (r : RowRef) : (m.mapValues f).content c r = (m.content c r).map f := by
  rw [content, content, stored_mapValues, stored_mapValues, Multiset.filter_map, Multiset.map_add]
  simp only [Multiset.map_map]
  rfl

theorem without_mapValues (f : Extended → Extended) (m : ConstraintMatrix) :
    (m.mapValues f).without .entries = m.without .entries := by
  have hrow : Forgetting.entries.row ∘ Row.mapValues f = Forgetting.entries.row := rfl
  have hcolumn : Forgetting.entries.column ∘ Column.mapValues f = Forgetting.entries.column := rfl
  simp only [mapValues, without, Array.map_map, Option.map_comp_map, Forgetting.through, hrow,
    hcolumn]

/-! ## The check -/

theorem rowRefs_mapValues (f : Extended → Extended) (m : ConstraintMatrix) :
    (m.mapValues f).rowRefs = m.rowRefs := by
  have hsize : (m.mapValues f).rows.size = m.rows.size := by simp [mapValues, without]
  rw [rowRefs, rowRefs, hsize]
  simp only [row?_mapValues, Option.isSome_map]

section Injective

variable (hf : Function.Injective f)

include hf

theorem entryAgrees_mapValues {κ lam : Type} [Reference lam] (line : lam) (l : Incidence κ)
    (position : Nat) (e : Entry κ) (partnerActive : Bool) (back : Incidence lam) :
    entryAgrees line (l.mapValues f) position (e.mapValue f) partnerActive (back.mapValues f) =
      entryAgrees line l position e partnerActive back := by
  have hvalue (v w : Extended) : (f v == f w) = (v == w) := by
    rw [Bool.eq_iff_iff, beq_iff_eq, beq_iff_eq, hf.eq_iff]
  obtain ⟨partner, v, _ | k⟩ := e
  · rfl
  · simp only [entryAgrees, Incidence.entry?_mapValues, Entry.mapValue]
    cases back.entry? k with
    | none => rfl
    | some e =>
      simp only [Option.map_some, Entry.mapValue, hvalue, Incidence.nrActive_mapValues]
      rfl

omit hf in
/-- A test of the entries of a list and their positions. -/
theorem all_zipIdx_mapValues {κ : Type} (l : Incidence κ) {test test' : Entry κ × Nat → Bool}
    (h : ∀ e i, test' (e.mapValue f, i) = test (e, i)) :
    (l.mapValues f).entries.toList.zipIdx.all test' = l.entries.toList.zipIdx.all test := by
  rw [Incidence.mapValues, Array.toList_map, List.zipIdx_map, List.all_map]
  congr 1
  funext p
  exact h p.1 p.2

variable (hzero : f 0 = 0)

include hzero

theorem columnAgrees_mapValues (m : ConstraintMatrix) (c : ColumnRef) :
    (m.mapValues f).columnAgrees c = m.columnAgrees c := by
  rw [columnAgrees, columnAgrees, column_mapValues]
  apply congrArg₂ and
  · exact Incidence.isConsistent_mapValues hf hzero _
  · apply all_zipIdx_mapValues
    intro e i
    have hpartner : (e.mapValue f).partner = e.partner := rfl
    dsimp only
    rw [row?_mapValues, hpartner]
    cases m.row? e.partner with
    | none => rfl
    | some row => exact entryAgrees_mapValues hf ..

theorem rowAgrees_mapValues (m : ConstraintMatrix) (r : RowRef) :
    (m.mapValues f).rowAgrees r = m.rowAgrees r := by
  rw [rowAgrees, rowAgrees, row?_mapValues]
  cases m.row? r with
  | none => rfl
  | some row =>
    apply congrArg₂ and
    · apply congrArg₂ and
      · exact Incidence.isConsistent_mapValues hf hzero _
      · rw [Row.isUnlinked, Row.isUnlinked, Row.mapValues, Incidence.nrUnlinked_mapValues,
          Incidence.size_mapValues]
    · apply all_zipIdx_mapValues
      intro e i
      apply congrArg₂ and
      · simp [mapValues, without, Entry.mapValue]
      · rw [column_mapValues]
        exact entryAgrees_mapValues hf ..

theorem isConsistent_mapValues (m : ConstraintMatrix) :
    (m.mapValues f).isConsistent = m.isConsistent := by
  rw [isConsistent, isConsistent, columnRefs_mapValues, rowRefs_mapValues,
    funext (columnAgrees_mapValues hf hzero m), funext (rowAgrees_mapValues hf hzero m)]

theorem orderly_mapValues : (m.mapValues f).Orderly ↔ m.Orderly := by
  have hrows (r : RowRef) {P : Row → Prop} :
      (∀ row ∈ (m.mapValues f).row? r, P row) ↔ ∀ row ∈ m.row? r, P (row.mapValues f) := by
    simp
  have hentries {κ : Type} (l : Incidence κ) {P : Entry κ → Prop} :
      (∀ e ∈ (l.mapValues f).entries, P e) ↔ ∀ e ∈ l.entries, P (e.mapValue f) := by
    simp [Incidence.mapValues]
  have hcolumns (c : ColumnRef) :
      ((m.mapValues f).column c).entries = (m.column c).entries.mapValues f := by
    rw [column_mapValues, Column.mapValues]
  simp only [orderly_iff, isConsistent_mapValues hf hzero, columnRefs_mapValues, rowRefs_mapValues,
    hrows, hcolumns, Row.mapValues, hentries, Incidence.partners_mapValues, Entry.mapValue]

end Injective

theorem allFinite_standIn (m : ConstraintMatrix) : (m.mapValues Extended.standIn).AllFinite := by
  intro x i e he
  rw [cell_mapValues, Option.map_eq_some_iff] at he
  obtain ⟨e, -, rfl⟩ := he
  exact e.value.isFinite_standIn

theorem orderly_standIn : (m.mapValues Extended.standIn).Orderly ↔ m.Orderly :=
  orderly_mapValues Extended.standIn_injective Extended.standIn_zero

/-- With rational numbers that stand for its values, an orderly matrix is sound. -/
theorem Orderly.sound_standIn (h : m.Orderly) : (m.mapValues Extended.standIn).Sound :=
  (orderly_standIn.mpr h).sound (allFinite_standIn m)

end ConstraintMatrix

end CertifiedLp
