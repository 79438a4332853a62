import Mathlib
import CertifiedLp.Proofs.Matrix.Moving
import CertifiedLp.Proofs.Matrix.Relinking

/-!
# What the solver is told of coefficients

The solver is told the active part of the list of a line. In a sound matrix this part has the
coefficients that both of their lines know, and their partners are active: what is not in the active
part, for an active partner, is not known to both lines.
-/

namespace CertifiedLp

theorem Incidence.mem_activeTerms {κ : Type} {l : Incidence κ} {x : κ × Extended} :
    x ∈ l.activeTerms ↔ ∃ i e, l.entries[i]? = some e ∧ i < l.nrActive ∧ e.partner = x.1 ∧
      e.value = x.2 := by
  rw [activeTerms, List.mem_map]
  simp only [activeEntries, Array.mem_toList_iff, Array.mem_iff_getElem?, Array.getElem?_extract]
  constructor
  · rintro ⟨e, ⟨i, hi⟩, rfl⟩
    split at hi
    · next hlt => exact ⟨i, e, by simpa using hi, by omega, rfl, rfl⟩
    · cases hi
  · rintro ⟨i, e, hi, hlt, hpartner, hvalue⟩
    have hsize := (Array.getElem?_eq_some_iff.mp hi).1
    exact ⟨e, ⟨i, by rw [if_pos (by omega), Nat.zero_add]; exact hi⟩, Prod.ext hpartner hvalue⟩

namespace ConstraintMatrix

variable {m : ConstraintMatrix} {c : ColumnRef} {r : RowRef} {row : Row} {x y : Line} {v : Extended}

/-- What is linked is stored by both lines. -/
theorem Sound.mem_stored_comm (hm : m.Sound) (h : (v, true) ∈ m.grid.stored x y) :
    (v, true) ∈ m.grid.stored y x := by
  obtain ⟨i, ⟨p, w, link⟩, he, rfl, rfl, hlink⟩ := Grid.mem_stored_iff.mp h
  obtain ⟨k, rfl⟩ := Option.isSome_iff_exists.mp hlink
  exact Grid.mem_stored_iff.mpr ⟨k, _, hm.wired.mirrored.back he, rfl, rfl, rfl⟩

/-- What is in the active part of a line is linked. -/
theorem Sound.mem_stored_of_cell (hm : m.Sound) {i : Nat} {e : Entry Line}
    (he : m.grid.cell x i = some e) (hi : i < m.grid.nrActive x) :
    (e.value, true) ∈ m.grid.stored x e.partner :=
  Grid.mem_stored_iff.mpr
    ⟨i, e, he, rfl, rfl, ((hm.wired.parted x i e he fun hno => hno).mp hi).1⟩

/-- What is linked to an active line is in the active part. -/
theorem Sound.exists_cell_of_mem (hm : m.Sound) (hactive : m.grid.isActive y = true)
    (h : (v, true) ∈ m.grid.stored x y) :
    ∃ i e, m.grid.cell x i = some e ∧ i < m.grid.nrActive x ∧ e.partner = y ∧ e.value = v := by
  obtain ⟨i, e, he, rfl, rfl, hlink⟩ := Grid.mem_stored_iff.mp h
  exact ⟨i, e, he, (hm.wired.parted x i e he fun hno => hno).mpr ⟨hlink, hactive⟩, rfl, rfl⟩

theorem Tidy.linked_of_mem (hm : m.Tidy) (h : (v, true) ∈ m.grid.stored (.column c) (.row r)) :
    m.linked c r = v.rational := by
  rw [linked, hm.stored_eq_singleton (x := .column c) trivial h, linkedTotal_singleton]
  rfl

/-- Where nothing is linked, the solver is told zero. -/
theorem linked_eq_zero_of_notMem (h : ∀ v, (v, true) ∉ m.grid.stored (.column c) (.row r)) :
    m.linked c r = 0 := by
  rw [linked, linkedTotal, Multiset.filter_eq_nil.mpr, Multiset.map_zero, Multiset.sum_zero]
  rintro ⟨v, b⟩ hv rfl
  exact h v hv

/-! ## Columns -/

theorem Sound.linked_of_columnTerm (hm : m.Sound) (h : (r, v) ∈ (m.column c).entries.activeTerms) :
    m.linked c r = v.rational := by
  obtain ⟨i, e, he, hi, rfl, rfl⟩ := Incidence.mem_activeTerms.mp h
  exact hm.tidy.linked_of_mem (hm.mem_stored_of_cell (cell_of_column he) hi)

theorem Sound.linked_of_no_columnTerm (hm : m.Sound) (hactive : m.grid.isActive (.row r) = true)
    (h : ∀ v, (r, v) ∉ (m.column c).entries.activeTerms) : m.linked c r = 0 := by
  refine linked_eq_zero_of_notMem fun v hv => ?_
  obtain ⟨i, e, he, hi, hpartner, rfl⟩ := hm.exists_cell_of_mem hactive hv
  rw [cell_column] at he
  obtain ⟨e, hentry, rfl⟩ := Option.map_eq_some_iff.mp he
  have hr : e.partner = r := Line.row.inj hpartner
  exact h e.value (Incidence.mem_activeTerms.mpr ⟨i, e, hentry, hi, hr, rfl⟩)

/-! ## Rows -/

theorem Sound.linked_of_rowTerm (hm : m.Sound) (hrow : m.row? r = some row)
    (h : (c, v) ∈ row.entries.activeTerms) : m.linked c r = v.rational := by
  obtain ⟨i, e, he, hi, rfl, rfl⟩ := Incidence.mem_activeTerms.mp h
  rw [← nrActive_row hrow] at hi
  exact hm.tidy.linked_of_mem
    (hm.mem_stored_comm (hm.mem_stored_of_cell (cell_of_row hrow he) hi))

theorem Sound.linked_of_no_rowTerm (hm : m.Sound) (hrow : m.row? r = some row)
    (hactive : (m.column c).isActive = true) (h : ∀ v, (c, v) ∉ row.entries.activeTerms) :
    m.linked c r = 0 := by
  refine linked_eq_zero_of_notMem fun v hv => ?_
  obtain ⟨i, e, he, hi, hpartner, rfl⟩ :=
    hm.exists_cell_of_mem (y := .column c) hactive (hm.mem_stored_comm hv)
  rw [cell_row hrow] at he
  obtain ⟨e, hentry, rfl⟩ := Option.map_eq_some_iff.mp he
  rw [nrActive_row hrow] at hi
  have hc : e.partner = c := Line.column.inj hpartner
  exact h e.value (Incidence.mem_activeTerms.mpr ⟨i, e, hentry, hi, hc, rfl⟩)

end ConstraintMatrix

end CertifiedLp
