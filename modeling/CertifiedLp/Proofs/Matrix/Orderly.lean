import Mathlib
import CertifiedLp.Proofs.Certificate.Totals
import CertifiedLp.Proofs.Matrix.Consistent

/-!
# Orderly matrices

The check of a matrix looks at counts, links and parts, but a matrix that passes it may have several
entries for a coefficient. It is *orderly* if no list has a partner twice, no coefficient is
unlinked in both of its lists, and no row delays its order. With rational coefficients this is
soundness, which is what operations keep.
-/

namespace CertifiedLp

namespace ConstraintMatrix

variable {m : ConstraintMatrix} {c : ColumnRef} {r : RowRef} {row : Row} {x y : Line} {i : Nat}

theorem mem_rowRefs : r ∈ m.rowRefs ↔ (m.row? r).isSome = true := by
  rw [rowRefs, List.mem_filter, List.mem_map]
  constructor
  · intro h
    exact h.2
  · intro h
    obtain ⟨row, hrow⟩ := Option.isSome_iff_exists.mp h
    obtain ⟨hlt, -⟩ := Array.getElem?_eq_some_iff.mp (Option.join_eq_some_iff.mp hrow)
    exact ⟨⟨r.index, List.mem_range.mpr hlt, rfl⟩, h⟩

/-- Columns that do not exist have no entries. -/
theorem has_of_mem_entries {e : Entry RowRef} (he : e ∈ (m.column c).entries.entries) :
    m.Has (.column c) := by
  obtain ⟨i, hi⟩ := Array.mem_iff_getElem?.mp he
  exact has_of_cell (cell_of_column hi)

/-! ## The check -/

theorem entry?_of_mem_zipIdx {κ : Type} {l : Incidence κ} {e : Entry κ}
    (h : (e, i) ∈ l.entries.toList.zipIdx) : l.entry? i = some e := by
  rw [List.mem_zipIdx_iff_getElem?] at h
  simpa [Incidence.entry?] using h

theorem rowAgrees_iff (hrow : m.row? r = some row) : m.rowAgrees r = true ↔
    row.entries.isConsistent = true ∧ (row.delayed = true → row.isUnlinked = true) ∧
    ∀ p ∈ row.entries.entries.toList.zipIdx, m.Has (.column p.1.partner) ∧
      entryAgrees r row.entries p.2 p.1 (m.column p.1.partner).isActive
        (m.column p.1.partner).entries = true := by
  rw [rowAgrees, hrow]
  simp only [Bool.and_eq_true, Bool.or_eq_true, Bool.not_eq_true', List.all_eq_true,
    decide_eq_true_eq, and_assoc, Has]
  cases row.delayed <;> simp

theorem rowAgrees_of_isConsistent (h : m.isConsistent = true) (hrow : m.row? r = some row) :
    row.entries.isConsistent = true ∧ (row.delayed = true → row.isUnlinked = true) ∧
    ∀ p ∈ row.entries.entries.toList.zipIdx, m.Has (.column p.1.partner) ∧
      entryAgrees r row.entries p.2 p.1 (m.column p.1.partner).isActive
        (m.column p.1.partner).entries = true := by
  rw [isConsistent, Bool.and_eq_true, List.all_eq_true, List.all_eq_true] at h
  apply (rowAgrees_iff hrow).mp
  apply h.2 r
  rw [mem_rowRefs, hrow, Option.isSome_some]

theorem isConsistent_column (h : m.isConsistent = true) (c : ColumnRef) :
    (m.column c).entries.isConsistent = true := by
  by_cases hc : m.Has (.column c)
  · rw [isConsistent, Bool.and_eq_true, List.all_eq_true] at h
    have hagrees := h.1 c (mem_columnRefs.mpr hc)
    rw [columnAgrees, Bool.and_eq_true] at hagrees
    exact hagrees.1
  · have hnew : m.column c = default := by
      by_contra hne
      exact hc (lt_size_of_column_ne hne)
    rw [hnew]
    refine Incidence.isConsistent_iff.mpr ⟨Nat.le_refl 0, ?_, ?_, Incidence.counted_empty⟩
    · intro e he
      cases he
    · intro e he
      simp [default, Column.create, Incidence.empty] at he

/-- What the check of a matrix says. -/
theorem isConsistent_iff : m.isConsistent = true ↔ m.Agrees ∧
    (∀ c, (m.column c).entries.isConsistent = true) ∧
    ∀ r row, m.row? r = some row → row.entries.isConsistent = true ∧
      (row.delayed = true → row.isUnlinked = true) ∧
      ∀ e ∈ row.entries.entries, m.Has (.column e.partner) := by
  constructor
  · intro h
    refine ⟨agrees_of_isConsistent h, ?_, ?_⟩
    · intro c
      exact isConsistent_column h c
    · intro r row hrow
      have hagrees := rowAgrees_of_isConsistent h hrow
      refine ⟨hagrees.1, hagrees.2.1, fun e he => ?_⟩
      obtain ⟨i, hi⟩ := Array.mem_iff_getElem?.mp he
      exact (hagrees.2.2 _ (entry?_mem_zipIdx hi)).1
  · rintro ⟨hagrees, hcolumns, hrows⟩
    rw [isConsistent, Bool.and_eq_true, List.all_eq_true, List.all_eq_true]
    constructor
    · intro c _
      rw [columnAgrees, Bool.and_eq_true, List.all_eq_true]
      refine ⟨hcolumns c, ?_⟩
      rintro ⟨e, i⟩ hmem
      obtain ⟨row, hrow, hentry⟩ := hagrees.columnEntry (entry?_of_mem_zipIdx hmem)
      dsimp only
      rw [hrow]
      exact entryAgrees_iff.mpr hentry
    · intro r hr
      obtain ⟨row, hrow⟩ := Option.isSome_iff_exists.mp (mem_rowRefs.mp hr)
      obtain ⟨hlist, hdelayed, hpartners⟩ := hrows r row hrow
      rw [rowAgrees_iff hrow]
      refine ⟨hlist, hdelayed, ?_⟩
      rintro ⟨e, i⟩ hmem
      have he := entry?_of_mem_zipIdx hmem
      exact ⟨hpartners e (Array.mem_of_getElem? he),
        entryAgrees_iff.mpr (hagrees.rowEntry hrow he)⟩

/-- A list passes its check if its counts are right, its active part is linked and no value is
zero. -/
theorem isConsistent_list {κ : Type} [Reference κ] {l : Incidence κ} (hcounted : l.Counted)
    (hbounded : l.nrActive ≤ l.size)
    (hentries : ∀ i e, l.entry? i = some e →
      (i < l.nrActive → e.link.isSome = true) ∧ e.value ≠ 0) : l.isConsistent = true := by
  refine Incidence.isConsistent_iff.mpr ⟨hbounded, ?_, ?_, hcounted⟩
  · intro e he
    obtain ⟨i, hi, hentry⟩ := Incidence.mem_activeEntries_iff.mp he
    exact (hentries i e hentry).1 hi
  · intro e he
    obtain ⟨i, hi⟩ := Array.mem_iff_getElem?.mp he
    exact (hentries i e hi).2

/-! ## Order -/

/-- The matrix passes its check, no list has a partner twice, no coefficient is unlinked in both of
its lists, and no row delays its order. -/
@[mk_iff]
structure Orderly (m : ConstraintMatrix) : Prop where
  consistent : m.isConsistent = true
  columnDistinct : ∀ c ∈ m.columnRefs,
    ((m.column c).entries.entries.toList.map (·.partner)).Nodup
  rowDistinct : ∀ r ∈ m.rowRefs, ∀ row ∈ m.row? r,
    (row.entries.entries.toList.map (·.partner)).Nodup
  oneSided : ∀ c ∈ m.columnRefs, ∀ r ∈ m.rowRefs, ∀ row ∈ m.row? r,
    ∀ e ∈ (m.column c).entries.entries, ∀ f ∈ row.entries.entries,
      e.partner = r → f.partner = c → e.link.isSome = true ∨ f.link.isSome = true
  ordered : ∀ r ∈ m.rowRefs, ∀ row ∈ m.row? r, row.delayed = false

instance (m : ConstraintMatrix) : Decidable m.Orderly := decidable_of_iff _ (orderly_iff m).symm

/-- No coefficient is infinite. -/
def AllFinite (m : ConstraintMatrix) : Prop :=
  ∀ x i e, m.grid.cell x i = some e → e.value.isFinite = true

namespace Orderly

variable (h : m.Orderly)

include h

theorem inOrder (x : Line) : m.InOrder x := by
  cases x with
  | column c => trivial
  | row r =>
    intro row hrow
    exact h.ordered r (mem_rowRefs.mpr (by rw [hrow, Option.isSome_some])) row hrow

theorem agrees : m.Agrees := (isConsistent_iff.mp h.consistent).1

theorem mirrored : m.grid.Mirrored where
  back {x i y k v} hl := by
    cases x with
    | column c =>
      obtain ⟨⟨r, w, link⟩, he, heq⟩ := partner_of_cell_column hl
      cases heq
      obtain ⟨row, hrow, -, hback⟩ := h.agrees.columnEntry he
      exact cell_of_row hrow (hback k rfl)
    | row r =>
      obtain ⟨row, ⟨c, w, link⟩, hrow, he, heq⟩ := partner_of_cell_row hl
      cases heq
      exact cell_of_column ((h.agrees.rowEntry hrow he).2 k rfl)
  ne {x i y k v} hl := by
    cases x with
    | column c =>
      obtain ⟨e, -, heq⟩ := partner_of_cell_column hl
      rintro rfl
      cases heq
    | row r =>
      obtain ⟨row, e, -, -, heq⟩ := partner_of_cell_row hl
      rintro rfl
      cases heq

theorem wired : m.grid.Wired where
  mirrored := h.mirrored
  parted x i e he _ := by
    cases x with
    | column c =>
      obtain ⟨e, hentry, rfl⟩ := partner_of_cell_column he
      obtain ⟨row, hrow, hpart, -⟩ := h.agrees.columnEntry hentry
      rw [Grid.InUse, Entry.map, isActive_row hrow]
      exact hpart
    | row r =>
      obtain ⟨row, e, hrow, hentry, rfl⟩ := partner_of_cell_row he
      rw [nrActive_row hrow]
      exact (h.agrees.rowEntry hrow hentry).1
  bounded x := by
    obtain ⟨-, hcolumns, hrows⟩ := isConsistent_iff.mp h.consistent
    cases x with
    | column c =>
      rw [cells_column, Array.size_map]
      exact (Incidence.isConsistent_iff.mp (hcolumns c)).1
    | row r =>
      cases hrow : m.row? r with
      | none => simp [grid, hrow]
      | some row =>
        rw [cells_row hrow, Array.size_map, nrActive_row hrow]
        exact (Incidence.isConsistent_iff.mp (hrows r row hrow).1).1

theorem counted (x : Line) : m.CountedAt x := by
  obtain ⟨-, hcolumns, hrows⟩ := isConsistent_iff.mp h.consistent
  cases x with
  | column c => exact (Incidence.isConsistent_iff.mp (hcolumns c)).2.2.2
  | row r =>
    intro row hrow
    exact (Incidence.isConsistent_iff.mp (hrows r row hrow).1).2.2.2

theorem value_ne_zero {e : Entry Line} (he : m.grid.cell x i = some e) : e.value ≠ 0 := by
  obtain ⟨-, hcolumns, hrows⟩ := isConsistent_iff.mp h.consistent
  cases x with
  | column c =>
    obtain ⟨e, hentry, rfl⟩ := partner_of_cell_column he
    exact (Incidence.isConsistent_iff.mp (hcolumns c)).2.2.1 e (Array.mem_of_getElem? hentry)
  | row r =>
    obtain ⟨row, e, hrow, hentry, rfl⟩ := partner_of_cell_row he
    exact (Incidence.isConsistent_iff.mp (hrows r row hrow).1).2.2.1 e
      (Array.mem_of_getElem? hentry)

theorem has_partner {e : Entry Line} (he : m.grid.cell x i = some e) : m.Has e.partner := by
  cases x with
  | column c =>
    obtain ⟨e, hentry, rfl⟩ := partner_of_cell_column he
    obtain ⟨row, hrow, -⟩ := h.agrees.columnEntry hentry
    exact Option.isSome_iff_exists.mpr ⟨row, hrow⟩
  | row r =>
    obtain ⟨row, e, hrow, hentry, rfl⟩ := partner_of_cell_row he
    obtain ⟨-, -, hrows⟩ := isConsistent_iff.mp h.consistent
    exact (hrows r row hrow).2.2 e (Array.mem_of_getElem? hentry)

theorem nodup_partners (x : Line) : ((m.grid.cells x).toList.map (·.partner)).Nodup := by
  have hmap {κ : Type} {name : κ → Line} (hname : Function.Injective name) {es : Array (Entry κ)}
      (hes : (es.toList.map (·.partner)).Nodup) :
      ((es.map (Entry.map name)).toList.map (·.partner)).Nodup := by
    have hnamed := hes.map hname
    rw [List.map_map] at hnamed
    rw [Array.toList_map, List.map_map]
    exact hnamed
  cases x with
  | column c =>
    by_cases hc : c ∈ m.columnRefs
    · exact hmap Line.row_injective (h.columnDistinct c hc)
    · have hempty : m.grid.cells (.column c) = #[] := by
        apply Array.eq_empty_iff_forall_not_mem.mpr
        intro e he
        obtain ⟨i, hi⟩ := Array.mem_iff_getElem?.mp he
        exact hc (mem_columnRefs.mpr (has_of_cell hi))
      rw [hempty]
      exact List.nodup_nil
  | row r =>
    cases hrow : m.row? r with
    | none =>
      have hempty : m.grid.cells (.row r) = #[] := by simp [grid, hrow]
      rw [hempty]
      exact List.nodup_nil
    | some row =>
      rw [cells_row hrow]
      exact hmap Line.column_injective
        (h.rowDistinct r (mem_rowRefs.mpr (by rw [hrow, Option.isSome_some])) row hrow)

theorem card_stored_le (x y : Line) : (m.grid.stored x y).card ≤ 1 := by
  have hcount := List.nodup_iff_count_le_one.mp (h.nodup_partners x) y
  rw [List.count_eq_countP, List.countP_map, List.countP_eq_length_filter] at hcount
  rw [Grid.stored, Multiset.coe_card, List.length_map]
  refine Nat.le_trans (Nat.le_of_eq (congrArg List.length (List.filter_congr ?_))) hcount
  intro e _
  rw [Bool.eq_iff_iff, decide_eq_true_iff]
  exact beq_iff_eq.symm

/-- One of the two entries of a coefficient is linked. -/
theorem isSome_link_or {e f : Entry Line} {j : Nat} (he : m.grid.cell x i = some e)
    (hf : m.grid.cell y j = some f) (hx : f.partner = x) (hy : e.partner = y) :
    e.link.isSome = true ∨ f.link.isSome = true := by
  have hpair {c : ColumnRef} {r : RowRef} {row : Row} {e : Entry RowRef} {f : Entry ColumnRef}
      (hrow : m.row? r = some row) (he : e ∈ (m.column c).entries.entries)
      (hf : f ∈ row.entries.entries) (hr : e.partner = r) (hc : f.partner = c) :
      e.link.isSome = true ∨ f.link.isSome = true :=
    h.oneSided c (mem_columnRefs.mpr (has_of_mem_entries he)) r
      (mem_rowRefs.mpr (by rw [hrow, Option.isSome_some])) row hrow e he f hf hr hc
  cases x with
  | column c =>
    obtain ⟨e, hentry, rfl⟩ := partner_of_cell_column he
    subst hy
    obtain ⟨row, f, hrow, hback, rfl⟩ := partner_of_cell_row hf
    exact hpair hrow (Array.mem_of_getElem? hentry) (Array.mem_of_getElem? hback) rfl
      (Line.column_injective hx)
  | row r =>
    obtain ⟨row, e, hrow, hentry, rfl⟩ := partner_of_cell_row he
    subst hy
    obtain ⟨f, hback, rfl⟩ := partner_of_cell_column hf
    exact (hpair hrow (Array.mem_of_getElem? hback) (Array.mem_of_getElem? hentry)
      (Line.row_injective hx) rfl).symm

theorem stored_eq_zero {v : Extended} (hv : (v, false) ∈ m.grid.stored x y) :
    m.grid.stored y x = 0 := by
  apply Multiset.eq_zero_of_forall_notMem
  rintro ⟨w, b⟩ hw
  obtain ⟨i, e, he, hy, rfl, hnone⟩ := Grid.mem_stored_iff.mp hv
  obtain ⟨j, f, hf, hx, rfl, -⟩ := Grid.mem_stored_iff.mp hw
  have hlink : f.link.isSome = true := by
    apply (h.isSome_link_or he hf hx hy).resolve_left
    rw [hnone]
    exact Bool.false_ne_true
  obtain ⟨k, hk⟩ := Option.isSome_iff_exists.mp hlink
  have hlinked : m.grid.Linked y j x k f.value := by
    obtain ⟨p, w, link⟩ := f
    obtain rfl : p = x := hx
    obtain rfl : link = some k := hk
    exact hf
  -- The counterpart of the linked entry would be a second entry for the same partner.
  have hback : (f.value, true) ∈ m.grid.stored x y :=
    Grid.mem_stored_iff.mpr ⟨k, _, h.mirrored.back hlinked, rfl, rfl, rfl⟩
  obtain ⟨rest, hrest⟩ := Multiset.exists_cons_of_mem hv
  have hcard := h.card_stored_le x y
  rw [hrest, Multiset.card_cons] at hcard
  have hzero : rest = 0 := Multiset.card_eq_zero.mp (by omega)
  rw [hrest, hzero] at hback
  simp at hback

theorem tidy (hfinite : m.AllFinite) : m.Tidy where
  has {x y} hxy := by
    obtain ⟨⟨v, b⟩, hv⟩ := Multiset.exists_mem_of_ne_zero hxy
    obtain ⟨i, e, he, rfl, -⟩ := Grid.mem_stored_iff.mp hv
    exact h.has_partner he
  storable hv := by
    obtain ⟨i, e, he, -, rfl, -⟩ := Grid.mem_stored_iff.mp hv
    exact ⟨hfinite _ i e he, h.value_ne_zero he⟩
  single _ := h.card_stored_le _ _
  oneSided := h.stored_eq_zero
  inOrder _ := h.inOrder _

/-- With rational coefficients, an orderly matrix is sound. -/
theorem sound (hfinite : m.AllFinite) : m.Sound := ⟨h.wired, h.counted, h.tidy hfinite⟩

end Orderly

namespace Sound

variable (hm : m.Sound)

include hm

/-- Links and parts agree in a sound matrix. -/
theorem agrees : m.Agrees where
  columnEntry {c i e} he := by
    obtain ⟨row, hrow⟩ := Option.isSome_iff_exists.mp (hm.tidy.has_partner (cell_of_column he))
    refine ⟨row, hrow, ?_, ?_⟩
    · have hpart := hm.columnPart he
      change m.row? e.partner = some row at hrow
      rwa [hrow, Option.any_some] at hpart
    · intro k hk
      obtain ⟨row', hrow', hback⟩ := hm.exists_row_of_link he hk
      obtain rfl : row' = row := Option.some.inj (hrow'.symm.trans hrow)
      exact hback
  rowEntry hrow he := ⟨hm.rowPart hrow he, fun i hi => hm.column_of_link hrow he hi⟩

/-- A sound matrix is orderly, if no row delays its order. -/
theorem orderly (hordered : ∀ x, m.InOrder x) : m.Orderly where
  consistent := by
    refine isConsistent_iff.mpr ⟨hm.agrees, ?_, ?_⟩
    · intro c
      apply isConsistent_list (hm.counted (.column c))
      · have hbounded := hm.wired.bounded (.column c)
        rwa [cells_column, Array.size_map] at hbounded
      · intro i e he
        exact ⟨fun hi => ((hm.columnPart he).mp hi).1, hm.value_ne_zero (cell_of_column he)⟩
    · intro r row hrow
      refine ⟨?_, ?_, ?_⟩
      · apply isConsistent_list (hm.counted (.row r) row hrow)
        · have hbounded := hm.wired.bounded (.row r)
          rwa [cells_row hrow, Array.size_map, nrActive_row hrow] at hbounded
        · intro i e he
          exact ⟨fun hi => ((hm.rowPart hrow he).mp hi).1, hm.value_ne_zero (cell_of_row hrow he)⟩
      · intro hdelayed
        rw [hordered (.row r) row hrow] at hdelayed
        cases hdelayed
      · intro e he
        obtain ⟨i, hi⟩ := Array.mem_iff_getElem?.mp he
        exact hm.tidy.has_partner (cell_of_row hrow hi)
  columnDistinct c _ := hm.columnDistinct c
  rowDistinct r _ row hrow := hm.rowDistinct hrow (hordered (.row r) row hrow)
  oneSided c _ r _ row hrow e he f hf hr hc := by
    obtain ⟨i, hi⟩ := Array.mem_iff_getElem?.mp he
    obtain ⟨j, hj⟩ := Array.mem_iff_getElem?.mp hf
    left
    rw [(hm.paired hi hr hrow hj hc).1, Option.isSome_some]
  ordered r _ := hordered (.row r)

end Sound

end ConstraintMatrix

end CertifiedLp
