import Mathlib
import CertifiedLp.Proofs.Matrix.Removing

/-!
# Freeing rows

When a row is freed, no column may refer to it any more. First the counterparts of its entries are
removed, position by position. Then every column is searched for entries that the row does not know
of, which have no link.
-/

namespace CertifiedLp

namespace ConstraintMatrix

variable {m m' t u : ConstraintMatrix} {c d : ColumnRef} {r : RowRef} {row : Row} {x y z a b : Line}
variable {i j k p n : Nat} {v : Extended} {e : Entry Line} {E : LpError → ConstraintMatrix → Prop}

/-- A row is being freed: the first of its entries have no link any more. Everything else is as it
should be, but for the parts of the row. -/
structure Freeing (m : ConstraintMatrix) (r : RowRef) (n : Nat) (t : ConstraintMatrix) : Prop where
  without : t.without .entries = m.without .entries
  counted : ∀ z, t.CountedAt z
  mirrored : t.grid.Mirrored
  bounded : ∀ z, t.grid.nrActive z ≤ (t.grid.cells z).size
  parted : t.grid.Parted (fun z _ => z = .row r) t.grid.InUse
  size : (t.grid.cells (.row r)).size = (m.grid.cells (.row r)).size
  unlinked : ∀ j e, j < n → t.grid.cell (.row r) j = some e → e.link = none
  stored : ∀ a b, a ≠ .row r → b ≠ .row r → t.grid.stored a b = m.grid.stored a b

/-- What an entry loses by being removed from a column is nothing that has to stay. -/
theorem Freeing.removed (h : Freeing m r n t) {link : Option Nat}
    (he : t.grid.cell (.column c) p = some ⟨.row r, v, link⟩)
    (hu : Removed t u (.column c) p ⟨.row r, v, link⟩) : Freeing m r n u where
  without := hu.without.trans h.without
  counted := hu.counted h.counted
  mirrored := hu.mirrored h.mirrored he
  bounded := hu.bounded he h.bounded
  parted z j e' he' hnot := by
    refine hu.parted h.mirrored he h.parted (fun j hj => by cases hj) z j e' he' ?_
    rintro ⟨-, hz | ⟨hz, -⟩⟩
    · exact hnot hz
    · exact hnot hz
  size := (hu.size_of_ne (by simp)).trans h.size
  unlinked j e hj he' := by
    obtain ⟨f, hf⟩ := hu.cell_of_ne h.mirrored he
    rw [hf _ _ (by simp)] at he'
    obtain ⟨e', hold, rfl⟩ := Option.map_eq_some_iff.mp he'
    have hnone := h.unlinked j e' hj hold
    rw [Grid.link_retold_eq_none]
    split
    · rfl
    · exact hnone
  stored a b ha hb := by
    have hsame := hu.stored h.mirrored he a b
    rw [if_neg fun heq => hb heq.2.symm, if_neg fun heq => ha heq.1, if_neg fun heq => ha heq.1,
      add_zero, add_zero, add_zero] at hsame
    rw [hsame, h.stored a b ha hb]

/-! ## Removing the counterparts -/

/-- The next entry of the row has no link. -/
theorem Freeing.skip (h : Freeing m r i t)
    (hi : ∀ e, t.grid.cell (.row r) i = some e → e.link = none) : Freeing m r (i + 1) t :=
  { h with
    unlinked := fun j e hj he => by
      rcases Nat.lt_succ_iff_lt_or_eq.mp hj with hlt | rfl
      · exact h.unlinked j e hlt he
      · exact hi e he }

section SetNrActive

/-- The matrix after the active part of a row was given up. -/
def withoutActivePart (m : ConstraintMatrix) (r : RowRef) : ConstraintMatrix :=
  m.modifyRow r fun row => { row with entries := row.entries.setNrActive 0 }

theorem row?_withoutActivePart (m : ConstraintMatrix) (r s : RowRef) :
    (m.withoutActivePart r).row? s = (m.row? s).map fun row =>
      if r = s then { row with entries := row.entries.setNrActive 0 } else row := by
  rw [withoutActivePart, row?_modifyRow]
  split
  · rfl
  · simp

theorem cells_withoutActivePart (m : ConstraintMatrix) (r : RowRef) :
    (m.withoutActivePart r).grid.cells = m.grid.cells := by
  funext z
  cases z with
  | column d => rfl
  | row s =>
    simp only [grid, row?_withoutActivePart, Option.map_map]
    congr 2
    funext row
    rw [Function.comp_apply]
    split
    · rw [Incidence.entries_setNrActive]
    · rfl

theorem nrActive_withoutActivePart (m : ConstraintMatrix) (r : RowRef) (z : Line) :
    (m.withoutActivePart r).grid.nrActive z = if z = .row r then 0 else m.grid.nrActive z := by
  cases z with
  | column d =>
    rw [if_neg (by simp)]
    rfl
  | row s =>
    by_cases hs : r = s
    · subst hs
      rw [if_pos rfl]
      cases hrow : m.row? r <;> simp [grid, row?_withoutActivePart, hrow]
    · rw [if_neg fun heq => hs (Line.row_injective heq).symm]
      simp only [grid, row?_withoutActivePart, if_neg hs, Option.map_id']

theorem isActive_withoutActivePart (m : ConstraintMatrix) (r : RowRef) :
    (m.withoutActivePart r).grid.isActive = m.grid.isActive := by
  funext z
  cases z with
  | column d => rfl
  | row s =>
    simp only [grid, row?_withoutActivePart, Option.any_map]
    congr 1
    funext row
    split <;> rfl

theorem without_withoutActivePart (m : ConstraintMatrix) (r : RowRef) :
    (m.withoutActivePart r).without .entries = m.without .entries :=
  without_modifyRow _ _ fun _ => rfl

theorem Freeing.withoutActivePart (h : Freeing m r n t) : Freeing m r n (t.withoutActivePart r) := by
  have hcells := cells_withoutActivePart t r
  have hcell (z : Line) (j : Nat) : (t.withoutActivePart r).grid.cell z j = t.grid.cell z j := by
    rw [Grid.cell, Grid.cell, hcells]
  refine ⟨(without_withoutActivePart t r).trans h.without, fun z => ?_, ?_, fun z => ?_,
    fun z j e he hz => ?_, by rw [hcells, h.size], fun j e hj he => ?_, fun a b ha hb => ?_⟩
  · cases z with
    | column d => exact h.counted (.column d)
    | row s =>
      intro row' hrow'
      rw [row?_withoutActivePart] at hrow'
      obtain ⟨row, hrow, rfl⟩ := Option.map_eq_some_iff.mp hrow'
      split
      · exact Incidence.counted_setNrActive (h.counted (.row s) row hrow) 0
      · exact h.counted (.row s) row hrow
  · refine h.mirrored.congr fun y k z j v => ?_
    rw [Grid.Linked, Grid.Linked, hcell]
  · rw [nrActive_withoutActivePart, hcells]
    split
    · exact Nat.zero_le _
    · exact h.bounded z
  · rw [hcell] at he
    rw [nrActive_withoutActivePart, if_neg hz, h.parted z j e he hz, Grid.InUse, Grid.InUse,
      isActive_withoutActivePart]
  · rw [hcell] at he
    exact h.unlinked j e hj he
  · rw [← h.stored a b ha hb, Grid.stored, Grid.stored, hcells]

end SetNrActive

/-- The counterparts of all entries of a row are removed. -/
theorem ends_unlinkRow (hm : m.Sound) (hrow : m.row? r = some row) :
    Ends (unlinkRow r) m (fun _ t => Freeing m r (m.grid.cells (.row r)).size t) E := by
  have hsize : row.entries.size = (m.grid.cells (.row r)).size := by
    rw [cells_row hrow, Array.size_map, Incidence.size]
  have hstart : Freeing m r 0 m :=
    { without := rfl
      counted := hm.counted
      mirrored := hm.wired.mirrored
      bounded := hm.wired.bounded
      parted := fun z j e he _ => hm.wired.parted z j e he id
      size := rfl
      unlinked := fun j e hj => by omega
      stored := fun _ _ _ _ => rfl }
  simp only [unlinkRow, Ends.bind_iff, ends_getRow hrow]
  rw [hsize]
  refine (Ends.forIn_range (Freeing m r) hstart fun i t hi ht => ?_).mono_ok fun _ t ht => ?_
  · obtain ⟨row', hrow'⟩ := Option.isSome_iff_exists.mp
      ((has_congr ht.without (.row r)).mpr (by rw [Has, hrow]; rfl))
    have hcell := cell_row hrow' i
    simp only [Ends.bind_iff, ends_getRow hrow', Incidence.entry?]
    generalize row'.entries.entries[i]? = found at hcell ⊢
    rcases found with _ | ⟨c, v, _ | k⟩
    · exact ⟨rfl, ht.skip fun e he => by simp [hcell] at he⟩
    · refine ⟨rfl, ht.skip fun e he => ?_⟩
      rw [hcell] at he
      cases he
      rfl
    · have hcell' : t.grid.cell (.row r) i = some ⟨.column c, v, some k⟩ := hcell
      have hback := ht.mirrored.back hcell'
      simp only [removeFromColumn, Ends.bind_iff, ends_getColumn, Ends.pure_iff]
      refine Ends.mono_ok (ends_remove ht.mirrored (ht.bounded _) hback) fun _ u hu => ?_
      have hhas : u.Has (.row r) := by
        rw [← has_congr (without_dropLink u (.row r) i)]
        exact (has_congr hu.without _).mpr (has_of_cell hcell')
      obtain ⟨row'', hrow''⟩ := Option.isSome_iff_exists.mp hhas
      rw [setRowLink, ends_updateRow hrow'']
      refine ⟨trivial, (ht.removed hback hu).skip fun e he => ?_⟩
      obtain ⟨f, hf⟩ := hu.cell_of_ne ht.mirrored hback
      rw [hf _ _ (by simp), hcell', Option.map_some, if_pos ⟨rfl, rfl⟩] at he
      cases he
      exact Grid.link_retold_eq_none.mpr rfl
  · obtain ⟨row', hrow'⟩ := Option.isSome_iff_exists.mp
      ((has_congr ht.without (.row r)).mpr (by rw [Has, hrow]; rfl))
    rw [ends_updateRow hrow']
    exact ht.withoutActivePart

/-! ## Searching the columns -/

/-- Nothing that a column stores for the row is linked. -/
theorem Freeing.link_eq_none (h : Freeing m r (m.grid.cells (.row r)).size t)
    (he : t.grid.cell x j = some e) (hpartner : e.partner = .row r) : e.link = none := by
  obtain ⟨y, v, _ | k⟩ := e
  · rfl
  · obtain rfl : y = .row r := hpartner
    have hback := h.mirrored.back he
    have hnone := h.unlinked k _ (h.size ▸ Grid.lt_size_of_cell hback) hback
    cases hnone

/-- A row is being freed, and some columns do not refer to it any more. -/
structure Dropping (m : ConstraintMatrix) (r : RowRef) (done : List ColumnRef)
    (t : ConstraintMatrix) : Prop where
  freeing : Freeing m r (m.grid.cells (.row r)).size t
  dropped : ∀ d ∈ done, t.grid.stored (.column d) (.row r) = 0

theorem Dropping.removed {done : List ColumnRef} (h : Dropping m r done t) (hc : c ∉ done)
    (he : t.grid.cell (.column c) p = some ⟨.row r, v, none⟩)
    (hu : Removed t u (.column c) p ⟨.row r, v, none⟩) : Dropping m r done u where
  freeing := h.freeing.removed he hu
  dropped d hd := by
    have hne : d ≠ c := fun heq => hc (heq ▸ hd)
    have hsame := hu.stored h.freeing.mirrored he (.column d) (.row r)
    simp only [Line.column.injEq, hne, false_and, if_false, add_zero, Option.isSome_none,
      Bool.false_eq_true, and_false] at hsame
    rw [hsame, h.dropped d hd]

/-- A column without entries for the row is done. -/
theorem Dropping.next {done : List ColumnRef} (h : Dropping m r done t)
    (hc : ∀ j e, t.grid.cell (.column c) j = some e → e.partner ≠ .row r) :
    Dropping m r (done ++ [c]) t where
  freeing := h.freeing
  dropped d hd := by
    rcases List.mem_append.mp hd with hd | hd
    · exact h.dropped d hd
    · rw [List.mem_singleton.mp hd]
      apply Multiset.eq_zero_of_forall_notMem
      rintro ⟨v, b⟩ hv
      obtain ⟨j, e, he, hpartner, -⟩ := Grid.mem_stored_iff.mp hv
      exact hc j e he hpartner

/-- The entries before a position do not refer to the row, and the others are still looked at. -/
theorem ends_dropUnlinked {done : List ColumnRef} (hc : c ∉ done) (remaining : Nat)
    (h : Dropping m r done t)
    (hbelow : ∀ j e, j < p → t.grid.cell (.column c) j = some e → e.partner ≠ .row r)
    (hsize : (t.grid.cells (.column c)).size ≤ p + remaining) :
    Ends (dropUnlinked c r p remaining) t (fun _ u => Dropping m r (done ++ [c]) u) E := by
  induction remaining generalizing p t with
  | zero =>
    exact h.next fun j e he => hbelow j e (Nat.lt_of_lt_of_le (Grid.lt_size_of_cell he) hsize) he
  | succ remaining ih =>
    have hcell := cell_column t c p
    have hnext (hp : ∀ e, t.grid.cell (.column c) p = some e → e.partner ≠ .row r) :
        ∀ j e, j < p + 1 → t.grid.cell (.column c) j = some e → e.partner ≠ .row r := by
      intro j e hj he
      rcases Nat.lt_succ_iff_lt_or_eq.mp hj with hlt | rfl
      · exact hbelow j e hlt he
      · exact hp e he
    rw [dropUnlinked]
    simp only [Ends.bind_iff, ends_getColumn, Incidence.entry?]
    generalize (t.column c).entries.entries[p]? = found at hcell ⊢
    rcases found with _ | ⟨s, v, _ | k⟩
    · have hp : (t.grid.cells (.column c)).size ≤ p := Array.getElem?_eq_none_iff.mp hcell
      exact h.next fun j e he => hbelow j e (Nat.lt_of_lt_of_le (Grid.lt_size_of_cell he) hp) he
    · simp only []
      split
      · next hs =>
        subst hs
        rw [Ends.bind_iff]
        have hcell' : t.grid.cell (.column c) p = some ⟨.row s, v, none⟩ := hcell
        have hrest : t.grid.nrActive (.column c) ≤ p := by
          by_contra hlt
          have hused := (h.freeing.parted _ _ _ hcell' (by simp)).mp (by omega)
          cases hused.1
        refine Ends.mono_ok (ends_remove h.freeing.mirrored (h.freeing.bounded _) hcell')
          fun _ u hu => ?_
        change Removed t u _ _ _ at hu
        refine ih (h.removed hc hcell' hu) (fun j e hj he => ?_) ?_
        · rw [hu.cell_of_lt h.freeing.mirrored hcell' hrest hj] at he
          exact hbelow j e hj he
        · have hsmaller := hu.size
          omega
      · next hs =>
        refine ih h (hnext fun e he => ?_) (by omega)
        rw [hcell] at he
        cases he
        exact fun heq => hs (Line.row_injective heq)
    · refine ih h (hnext fun e he heq => ?_) (by omega)
      have hnone := h.freeing.link_eq_none he heq
      rw [hcell] at he
      cases he
      cases hnone

/-! ## Freeing -/

/-- The matrix without a row. -/
def withoutRow (m : ConstraintMatrix) (r : RowRef) : ConstraintMatrix :=
  { m with rows := m.rows.setIfInBounds r.index none }

theorem row?_withoutRow (m : ConstraintMatrix) (r s : RowRef) :
    (m.withoutRow r).row? s = if r = s then none else m.row? s := by
  rw [row?, withoutRow, Array.getElem?_setIfInBounds]
  by_cases hs : r = s
  · subst hs
    rw [if_pos rfl, if_pos rfl]
    split <;> rfl
  · have hindex : r.index ≠ s.index := fun heq => hs (Reference.index_injective heq)
    rw [if_neg hindex, if_neg hs]
    rfl

theorem grid_withoutRow (m : ConstraintMatrix) (r : RowRef) : (m.withoutRow r).grid =
    { cells := fun z => if z = .row r then #[] else m.grid.cells z
      nrActive := fun z => if z = .row r then 0 else m.grid.nrActive z
      isActive := fun z => if z = .row r then false else m.grid.isActive z } := by
  rw [grid, Grid.mk.injEq]
  refine ⟨?_, ?_, ?_⟩ <;> funext z <;> cases z with
  | column d => rfl
  | row s =>
    by_cases hs : r = s
    · subst hs
      simp [row?_withoutRow]
    · simp [row?_withoutRow, hs, Ne.symm hs, grid]

theorem has_withoutRow (hx : x ≠ .row r) : (m.withoutRow r).Has x ↔ m.Has x := by
  cases x with
  | column d => exact Iff.rfl
  | row s =>
    have hs : r ≠ s := fun heq => hx (congrArg Line.row heq.symm)
    rw [Has, Has, row?_withoutRow, if_neg hs]

theorem inOrder_withoutRow (hx : x ≠ .row r) : (m.withoutRow r).InOrder x ↔ m.InOrder x := by
  cases x with
  | column d => exact Iff.rfl
  | row s =>
    have hs : r ≠ s := fun heq => hx (congrArg Line.row heq.symm)
    rw [InOrder, InOrder, row?_withoutRow, if_neg hs]

theorem without_withoutRow (h : m'.without .entries = m.without .entries) (r : RowRef) :
    (m'.withoutRow r).without .entries = (m.withoutRow r).without .entries := by
  have hset (m : ConstraintMatrix) : (m.withoutRow r).without .entries =
      { m.without .entries with
        rows := (m.without .entries).rows.setIfInBounds r.index none } := by
    rw [withoutRow, without, without]
    congr 1
    exact Array.map_setIfInBounds
  rw [hset, hset, h]

theorem cell_withoutRow (he : (m.withoutRow r).grid.cell x j = some e) :
    x ≠ .row r ∧ m.grid.cell x j = some e := by
  rw [Grid.cell, grid_withoutRow] at he
  simp only at he
  split at he
  · cases he
  · next hx => exact ⟨hx, he⟩

/-- A row was freed, and with it all of its coefficients. -/
structure Freed (m m' : ConstraintMatrix) (r : RowRef) : Prop where
  sound : m'.Sound
  without : m'.without .entries = (m.withoutRow r).without .entries
  stored : ∀ a b, m'.grid.stored a b = if a = .row r ∨ b = .row r then 0 else m.grid.stored a b

namespace Dropping

variable (h : Dropping m r m.columnRefs t)

include h

/-- Only columns could refer to the row, and none of them does. -/
theorem partner_ne (he : t.grid.cell x j = some e) : e.partner ≠ .row r := by
  intro heq
  cases x with
  | column d =>
    have hlt : d.index < m.columns.size :=
      (has_congr h.freeing.without (.column d)).mp (has_of_cell he)
    have hd : d ∈ m.columnRefs := by
      rw [columnRefs, List.mem_map]
      exact ⟨d.index, List.mem_range.mpr hlt, rfl⟩
    exact stored_ne_zero he (heq ▸ h.dropped d hd)
  | row s =>
    obtain ⟨row, e', -, -, rfl⟩ := partner_of_cell_row he
    cases heq

theorem stored_withoutRow (a b : Line) : (t.withoutRow r).grid.stored a b =
    if a = .row r ∨ b = .row r then 0 else m.grid.stored a b := by
  by_cases ha : a = .row r
  · rw [if_pos (.inl ha), Grid.stored, grid_withoutRow, ha]
    simp
  · have hsame : (t.withoutRow r).grid.stored a b = t.grid.stored a b := by
      rw [Grid.stored, Grid.stored, grid_withoutRow]
      simp only [if_neg ha]
    rw [hsame]
    by_cases hb : b = .row r
    · rw [if_pos (.inr hb)]
      apply Multiset.eq_zero_of_forall_notMem
      rintro ⟨v, s⟩ hv
      obtain ⟨j, e, he, hp, -⟩ := Grid.mem_stored_iff.mp hv
      exact h.partner_ne he (hp.trans hb)
    · rw [if_neg (not_or.mpr ⟨ha, hb⟩), h.freeing.stored a b ha hb]

theorem wired_withoutRow : (t.withoutRow r).grid.Wired where
  mirrored := {
    back := fun {x i y k v} hl => by
      have hold := (cell_withoutRow hl).2
      have hy : y ≠ .row r := h.partner_ne hold
      rw [Grid.Linked, Grid.cell, grid_withoutRow]
      simp only [if_neg hy]
      exact h.freeing.mirrored.back hold
    ne := fun {x i y k v} hl => h.freeing.mirrored.ne (cell_withoutRow hl).2 }
  parted z j e he _ := by
    obtain ⟨hz, he⟩ := cell_withoutRow he
    rw [grid_withoutRow]
    simp only [Grid.InUse, if_neg hz, if_neg (h.partner_ne he)]
    exact h.freeing.parted z j e he hz
  bounded z := by
    rw [grid_withoutRow]
    simp only
    split
    · exact Nat.zero_le _
    · exact h.freeing.bounded z

theorem tidy_withoutRow (hm : m.Tidy) : (t.withoutRow r).Tidy := by
  have hf := h.freeing
  have hold {a b : Line} {w : Extended × Bool} (hw : w ∈ (t.withoutRow r).grid.stored a b) :
      (a ≠ .row r ∧ b ≠ .row r) ∧ w ∈ m.grid.stored a b := by
    rw [h.stored_withoutRow] at hw
    split at hw
    · exact absurd hw (Multiset.notMem_zero _)
    · next hab => exact ⟨not_or.mp hab, hw⟩
  refine ⟨fun {a b} hab => ?_, fun {a b v s} hv => hm.storable (hold hv).2, fun {a b} ha => ?_,
    fun {a b v} hv => ?_, fun {a} ha => ?_⟩
  · obtain ⟨w, hw⟩ := Multiset.exists_mem_of_ne_zero hab
    obtain ⟨⟨-, hb⟩, hw⟩ := hold hw
    rw [has_withoutRow hb, has_congr hf.without]
    exact hm.has fun hzero => Multiset.notMem_zero _ (hzero ▸ hw)
  · rw [h.stored_withoutRow]
    split
    · simp
    · next hab =>
      rw [inOrder_withoutRow (not_or.mp hab).1, inOrder_congr hf.without] at ha
      exact hm.single ha
  · obtain ⟨hab, hv⟩ := hold hv
    rw [h.stored_withoutRow, if_neg (not_or.mpr hab.symm)]
    exact hm.oneSided hv
  · rw [grid_withoutRow] at ha
    simp only at ha
    split at ha
    · cases ha
    · next hne =>
      rw [isActive_congr hf.without] at ha
      rw [inOrder_withoutRow hne, inOrder_congr hf.without]
      exact hm.inOrder ha

theorem freed (hm : m.Sound) : Freed m (t.withoutRow r) r where
  sound := {
    wired := h.wired_withoutRow
    counted := fun z => by
      cases z with
      | column d => exact h.freeing.counted (.column d)
      | row s =>
        intro row hrow
        rw [row?_withoutRow] at hrow
        split at hrow
        · cases hrow
        · exact h.freeing.counted (.row s) row hrow
    tidy := h.tidy_withoutRow hm.tidy }
  without := without_withoutRow h.freeing.without r
  stored := h.stored_withoutRow

end Dropping

/-- A row can be freed, whatever is stored for it. -/
theorem ends_freeRow (hm : m.Sound) (hrow : m.row? r = some row) :
    Ends (freeRow r) m (fun _ m' => Freed m m' r) E := by
  simp only [freeRow, Ends.bind_iff]
  refine (ends_unlinkRow hm hrow).mono_ok fun _ t ht => ?_
  have hcolumns : t.columnRefs = m.columnRefs := by
    rw [columnRefs, columnRefs, size_columns_eq_of_without ht.without]
  have hnodup : m.columnRefs.Nodup := by
    rw [columnRefs]
    exact List.nodup_range.map fun _ _ heq => congrArg ColumnRef.index heq
  simp only [Ends.get_iff, hcolumns]
  refine (Ends.forIn_list (Dropping m r) ⟨ht, fun d hd => by simp at hd⟩
    fun done c rest t hsplit ht => ?_).mono_ok fun _ t ht => ht.freed hm
  have hc : c ∉ done := by
    rw [hsplit] at hnodup
    exact fun hmem => (List.nodup_append.mp hnodup).2.2 c hmem c (by simp) rfl
  have hsize : (t.grid.cells (.column c)).size = (t.column c).entries.size := by
    rw [cells_column, Array.size_map, Incidence.size]
  simp only [Ends.bind_iff, ends_getColumn]
  split
  · simp only [Ends.bind_iff, Ends.pure_iff]
    refine (ends_dropUnlinked hc _ ht (fun j e hj => by omega) ?_).mono_ok
      fun _ u hu => ⟨trivial, hu⟩
    omega
  · next hnone =>
    refine ⟨rfl, ht.next fun j e he heq => ?_⟩
    have hlink := ht.freeing.link_eq_none he heq
    obtain ⟨e', he', rfl⟩ := partner_of_cell_column he
    have hsome := (ht.freeing.counted (.column c)).isSome_link (by omega) he'
    change e'.link = none at hlink
    rw [hlink] at hsome
    cases hsome

end ConstraintMatrix

end CertifiedLp
