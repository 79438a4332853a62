import Mathlib
import CertifiedLp.Proofs.Matrix.Sound

/-!
# The lists of a sound matrix

What soundness says about the lists of columns and rows, entry by entry.
-/

namespace CertifiedLp

namespace Incidence

variable {κ : Type}

/-- The counts of a list are those of its entries: of the entries linked to an active partner, of
those without a link, and of the neighbours out of order in each part. -/
structure Exact [Reference κ] (l : Incidence κ) (active : κ → Bool) : Prop where
  nrActive : l.nrActive = l.entries.toList.countP fun e => e.link.isSome && active e.partner
  nrUnlinked : l.nrUnlinked = l.entries.toList.countP (·.link.isNone)
  descents : ∀ part, l.descents part = l.countDescents part

/-- If exactly the first elements satisfy a test, then their number is that of all elements that
do. -/
theorem countP_eq_of_lt_iff {α : Type} {xs : List α} {n : Nat} {test : α → Bool}
    (hn : n ≤ xs.length) (h : ∀ i x, xs[i]? = some x → (i < n ↔ test x = true)) :
    xs.countP test = n := by
  have hfront : (xs.take n).countP test = n := by
    rw [List.countP_eq_length.mpr, List.length_take, Nat.min_eq_left hn]
    intro x hx
    obtain ⟨i, hi⟩ := List.mem_iff_getElem?.mp hx
    rw [List.getElem?_take] at hi
    split at hi
    · next hlt => exact (h i x hi).mp hlt
    · cases hi
  have hend : (xs.drop n).countP test = 0 := by
    rw [List.countP_eq_zero]
    intro x hx htest
    obtain ⟨i, hi⟩ := List.mem_iff_getElem?.mp hx
    rw [List.getElem?_drop] at hi
    exact Nat.not_lt.mpr (Nat.le_add_right n i) ((h (n + i) x hi).mpr htest)
  rw [← List.take_append_drop n xs, List.countP_append, hfront, hend, Nat.add_zero]

theorem Counted.exact [Reference κ] {l : Incidence κ} {active : κ → Bool} (h : l.Counted)
    (hbounded : l.nrActive ≤ l.entries.size)
    (hparts : ∀ i e, l.entries[i]? = some e →
      (i < l.nrActive ↔ e.link.isSome = true ∧ active e.partner = true)) : l.Exact active where
  nrActive := by
    refine (countP_eq_of_lt_iff (by simpa using hbounded) fun i e he => ?_).symm
    rw [hparts i e (by simpa using he), Bool.and_eq_true]
  nrUnlinked := h.unlinked
  descents := h.descents

/-- A list with at most one entry for each partner. -/
theorem nodup_partners [DecidableEq κ] {xs : List (Entry κ)}
    (h : ∀ y, (xs.filter (·.partner = y)).length ≤ 1) : (xs.map (·.partner)).Nodup := by
  rw [List.nodup_iff_count_le_one]
  intro y
  rw [List.count_eq_countP, List.countP_map, List.countP_eq_length_filter]
  exact Nat.le_trans (Nat.le_of_eq (congrArg List.length
    (List.filter_congr fun e _ => by rw [Bool.eq_iff_iff, decide_eq_true_iff]; exact beq_iff_eq)))
    (h y)

end Incidence

namespace ConstraintMatrix

variable {m : ConstraintMatrix} {c : ColumnRef} {r : RowRef} {row : Row}

/-- What holds between the lists of columns and rows. -/
structure Consistent (m : ConstraintMatrix) : Prop where
  /-- Linked entries refer to each other and have the same value. -/
  columnLink : ∀ {c} {i j : Nat} {e : Entry RowRef}, (m.column c).entries.entries[i]? = some e →
    e.link = some j → ∃ row, m.row? e.partner = some row ∧
      row.entries.entries[j]? = some ⟨c, e.value, some i⟩
  rowLink : ∀ {r row} {i j : Nat} {e : Entry ColumnRef}, m.row? r = some row →
    row.entries.entries[i]? = some e → e.link = some j →
      (m.column e.partner).entries.entries[j]? = some ⟨r, e.value, some i⟩
  /-- The active part has the entries that are linked to an active partner. -/
  columnPart : ∀ {c} {i : Nat} {e : Entry RowRef}, (m.column c).entries.entries[i]? = some e →
    (i < (m.column c).entries.nrActive ↔
      e.link.isSome = true ∧ (m.row? e.partner).any (·.isActive) = true)
  rowPart : ∀ {r row} {i : Nat} {e : Entry ColumnRef}, m.row? r = some row →
    row.entries.entries[i]? = some e →
      (i < row.entries.nrActive ↔ e.link.isSome = true ∧ (m.column e.partner).isActive = true)
  /-- No zero is stored. -/
  columnValue : ∀ {c} {i : Nat} {e : Entry RowRef}, (m.column c).entries.entries[i]? = some e →
    e.value ≠ 0
  rowValue : ∀ {r row} {i : Nat} {e : Entry ColumnRef}, m.row? r = some row →
    row.entries.entries[i]? = some e → e.value ≠ 0
  /-- No line lists another one twice, unless it is a row that delays its order. -/
  columnDistinct : ∀ c, ((m.column c).entries.entries.toList.map (·.partner)).Nodup
  rowDistinct : ∀ {r row}, m.row? r = some row → row.delayed = false →
    (row.entries.entries.toList.map (·.partner)).Nodup
  /-- The entries of a coefficient that both lines store are linked to each other. -/
  paired : ∀ {c r row} {i j : Nat} {e : Entry RowRef} {f : Entry ColumnRef},
    (m.column c).entries.entries[i]? = some e → e.partner = r → m.row? r = some row →
      row.entries.entries[j]? = some f → f.partner = c → e.link = some j ∧ f.link = some i
  /-- All counts are exact. -/
  columnCounts : ∀ c, (m.column c).entries.Exact fun r => (m.row? r).any (·.isActive)
  rowCounts : ∀ {r row}, m.row? r = some row →
    row.entries.Exact fun c => (m.column c).isActive

namespace Sound

variable (hm : m.Sound)

include hm

theorem exists_row_of_link {i j : Nat} {e : Entry RowRef}
    (he : (m.column c).entries.entries[i]? = some e) (hlink : e.link = some j) :
    ∃ row, m.row? e.partner = some row ∧ row.entries.entries[j]? = some ⟨c, e.value, some i⟩ := by
  obtain ⟨r, v, link⟩ := e
  obtain rfl : link = some j := hlink
  have hback : m.grid.Linked (.row r) j (.column c) i v :=
    hm.wired.mirrored.back (cell_of_column he)
  obtain ⟨row, f, hrow, hf, heq⟩ := partner_of_cell_row hback
  obtain ⟨d, w, k⟩ := f
  cases heq
  exact ⟨row, hrow, hf⟩

theorem column_of_link {i j : Nat} {e : Entry ColumnRef} (hrow : m.row? r = some row)
    (he : row.entries.entries[i]? = some e) (hlink : e.link = some j) :
    (m.column e.partner).entries.entries[j]? = some ⟨r, e.value, some i⟩ := by
  obtain ⟨c, v, link⟩ := e
  obtain rfl : link = some j := hlink
  have hback : m.grid.Linked (.column c) j (.row r) i v :=
    hm.wired.mirrored.back (cell_of_row hrow he)
  obtain ⟨f, hf, heq⟩ := partner_of_cell_column hback
  obtain ⟨s, w, k⟩ := f
  cases heq
  exact hf

theorem columnPart {i : Nat} {e : Entry RowRef}
    (he : (m.column c).entries.entries[i]? = some e) :
    i < (m.column c).entries.nrActive ↔
      e.link.isSome = true ∧ (m.row? e.partner).any (·.isActive) = true :=
  hm.wired.parted _ i _ (cell_of_column he) id

theorem rowPart {i : Nat} {e : Entry ColumnRef} (hrow : m.row? r = some row)
    (he : row.entries.entries[i]? = some e) :
    i < row.entries.nrActive ↔ e.link.isSome = true ∧ (m.column e.partner).isActive = true := by
  have hpart := hm.wired.parted _ i _ (cell_of_row hrow he) id
  rwa [nrActive_row hrow] at hpart

/-- No entry of a line has the value zero. -/
theorem value_ne_zero {x : Line} {i : Nat} {e : Entry Line} (he : m.grid.cell x i = some e) :
    e.value ≠ 0 :=
  (hm.tidy.storable (Grid.mem_stored_iff.mpr ⟨i, e, he, rfl, rfl, rfl⟩)).2

/-- A line in order has at most one entry for each other line. -/
theorem length_filter_le {x : Line} (hx : m.InOrder x) (y : Line) :
    ((m.grid.cells x).toList.filter (·.partner = y)).length ≤ 1 := by
  have hsingle := hm.tidy.single (y := y) hx
  rwa [Grid.stored, Multiset.coe_card, List.length_map] at hsingle

theorem columnDistinct (c : ColumnRef) :
    ((m.column c).entries.entries.toList.map (·.partner)).Nodup := by
  refine Incidence.nodup_partners fun r => ?_
  have hle := hm.length_filter_le (x := .column c) trivial (.row r)
  rw [cells_column, Array.toList_map, List.filter_map, List.length_map] at hle
  exact Nat.le_trans (Nat.le_of_eq (congrArg List.length
    (List.filter_congr fun e _ => by simp [Entry.map]))) hle

theorem rowDistinct (hrow : m.row? r = some row) (hordered : row.delayed = false) :
    (row.entries.entries.toList.map (·.partner)).Nodup := by
  refine Incidence.nodup_partners fun c => ?_
  have horder : m.InOrder (.row r) := fun row' hrow' =>
    Option.some.inj (hrow'.symm.trans hrow) ▸ hordered
  have hle := hm.length_filter_le horder (.column c)
  rw [cells_row hrow, Array.toList_map, List.filter_map, List.length_map] at hle
  exact Nat.le_trans (Nat.le_of_eq (congrArg List.length
    (List.filter_congr fun e _ => by simp [Entry.map]))) hle

/-- A column has at most one entry for a row. -/
theorem column_position_eq {i j : Nat} {e f : Entry RowRef}
    (he : (m.column c).entries.entries[i]? = some e)
    (hf : (m.column c).entries.entries[j]? = some f) (hpartner : e.partner = f.partner) :
    i = j := by
  have hlt := (Array.getElem?_eq_some_iff.mp he).1
  refine (List.getElem?_inj (by simpa using hlt) (hm.columnDistinct c)).mp ?_
  simp [he, hf, hpartner]

theorem paired {i j : Nat} {e : Entry RowRef} {f : Entry ColumnRef}
    (he : (m.column c).entries.entries[i]? = some e) (hr : e.partner = r)
    (hrow : m.row? r = some row) (hf : row.entries.entries[j]? = some f) (hc : f.partner = c) :
    e.link = some j ∧ f.link = some i := by
  have hforth := cell_of_column he
  have hback := cell_of_row hrow hf
  cases hlink : f.link with
  | none =>
    have hstored : (f.value, false) ∈ m.grid.stored (.row r) (.column c) :=
      Grid.mem_stored_iff.mpr
        ⟨j, _, hback, by rw [Entry.map, hc], rfl, by rw [Entry.map, hlink]; rfl⟩
    have hmem : (e.value, e.link.isSome) ∈ m.grid.stored (.column c) (.row r) :=
      Grid.mem_stored_iff.mpr ⟨i, _, hforth, by rw [Entry.map, hr], rfl, rfl⟩
    rw [hm.tidy.oneSided hstored] at hmem
    cases hmem
  | some k =>
    have hcounterpart := hm.column_of_link hrow hf hlink
    rw [hc] at hcounterpart
    obtain rfl := hm.column_position_eq he hcounterpart hr
    rw [he] at hcounterpart
    cases hcounterpart
    exact ⟨rfl, rfl⟩

/-- The lists of a sound matrix are consistent. -/
theorem consistent : m.Consistent where
  columnLink := hm.exists_row_of_link
  rowLink := hm.column_of_link
  columnPart := hm.columnPart
  rowPart := hm.rowPart
  columnValue he := hm.value_ne_zero (cell_of_column he)
  rowValue hrow he := hm.value_ne_zero (cell_of_row hrow he)
  columnDistinct := hm.columnDistinct
  rowDistinct := hm.rowDistinct
  paired := hm.paired
  columnCounts c := by
    refine (hm.counted (.column c)).exact ?_ fun i e => hm.columnPart
    have hbounded := hm.wired.bounded (.column c)
    rwa [cells_column, Array.size_map] at hbounded
  rowCounts {r row} hrow := by
    refine (hm.counted (.row r) row hrow).exact ?_ fun i e => hm.rowPart hrow
    have hbounded := hm.wired.bounded (.row r)
    rwa [cells_row hrow, Array.size_map, nrActive_row hrow] at hbounded

end Sound

end ConstraintMatrix

end CertifiedLp
