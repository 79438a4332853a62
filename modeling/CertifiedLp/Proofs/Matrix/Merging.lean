import Mathlib
import CertifiedLp.Proofs.Incidence.Merging
import CertifiedLp.Proofs.Matrix.Adding

/-!
# Rows that delay their order

A row begins to delay its order while none of its entries is linked, and it is merged under the same
condition. Then no other line knows of its entries, and they can be replaced by others. Merging
changes no coefficient, because a coefficient of a row that delays its order is the sum of what is
stored.
-/

namespace CertifiedLp

namespace Grid

variable {g : Grid} {x y : Line} {es : Array (Entry Line)}

/-- A line without links has no active part. -/
theorem Wired.nrActive_eq_zero (h : g.Wired) (hold : ∀ i e, g.cell x i = some e → e.link = none) :
    g.nrActive x = 0 := by
  by_contra hne
  obtain ⟨e, he⟩ : ∃ e, g.cell x 0 = some e :=
    ⟨_, Array.getElem?_eq_getElem (Nat.lt_of_lt_of_le (Nat.pos_of_ne_zero hne) (h.bounded x))⟩
  have hused := ((h.parted x 0 e he id).mp (Nat.pos_of_ne_zero hne)).1
  rw [hold 0 e he] at hused
  cases hused

/-- The entries of a line without links can be replaced by others without links. -/
theorem Wired.update (h : g.Wired) (hold : ∀ i e, g.cell x i = some e → e.link = none)
    (hnew : ∀ e ∈ es, e.link = none) : (g.update x es).Wired where
  mirrored := by
    refine h.mirrored.congr fun y i z k v => ?_
    by_cases hy : y = x
    · subst hy
      have hnone {e : Entry Line} (he : (g.update y es).cell y i = some e) : e.link = none := by
        rw [cell, cells_update_self] at he
        exact hnew e (Array.mem_of_getElem? he)
      refine ⟨fun hl => ?_, fun hl => ?_⟩
      · cases hnone hl
      · cases hold i _ hl
    · rw [Linked, Linked, cell_update_of_ne hy]
  parted := by
    intro y i e he _
    rw [nrActive_update]
    by_cases hy : y = x
    · subst hy
      rw [cell, cells_update_self] at he
      rw [h.nrActive_eq_zero hold, InUse, hnew e (Array.mem_of_getElem? he)]
      simp
    · rw [cell_update_of_ne hy] at he
      exact h.parted y i e he id
  bounded y := by
    rw [nrActive_update]
    by_cases hy : y = x
    · subst hy
      rw [h.nrActive_eq_zero hold]
      exact Nat.zero_le _
    · rw [cells_update_of_ne hy]
      exact h.bounded y

theorem stored_update_of_ne (hy : y ≠ x) : (g.update x es).stored y = g.stored y := by
  funext z
  rw [stored, stored, cells_update_of_ne hy]

end Grid

namespace ConstraintMatrix

variable {m m' : ConstraintMatrix} {c : ColumnRef} {r : RowRef} {row : Row} {f : Row → Row}
variable {l : Incidence ColumnRef} {E : LpError → ConstraintMatrix → Prop}

/-- What is done to a row depends on that row only. -/
theorem modifyRow_congr (hrow : m.row? r = some row) {g : Row → Row} (h : f row = g row) :
    m.modifyRow r f = m.modifyRow r g := by
  have hrows : m.rows[r.index]? = some (some row) := Option.join_eq_some_iff.mp hrow
  rw [modifyRow, modifyRow]
  congr 1
  apply Array.ext_getElem?
  intro i
  rw [Array.getElem?_modify, Array.getElem?_modify]
  split
  · next hi =>
    subst hi
    rw [hrows, Option.map_some, Option.map_some, Option.map_some, Option.map_some, h]
  · rfl

/-! ## Rows without links -/

theorem Sound.link_eq_none_of_isUnlinked (hm : m.Sound) (hrow : m.row? r = some row)
    (hunlinked : row.isUnlinked = true) {e : Entry ColumnRef} (he : e ∈ row.entries.entries) :
    e.link = none := by
  obtain ⟨i, hi⟩ := Array.getElem?_of_mem he
  exact (hm.counted (.row r) row hrow).link_eq_none (by simpa [Row.isUnlinked] using hunlinked) hi

/-- What a list without links stores for each column. -/
def storedIn (l : Incidence ColumnRef) (c : ColumnRef) : Multiset Extended :=
  ((l.entries.toList.filter (·.partner = c)).map (·.value) : List _)

theorem stored_row_of_unlinked (hrow : m.row? r = some row)
    (hnone : ∀ e ∈ row.entries.entries, e.link = none) (c : ColumnRef) :
    m.grid.stored (.row r) (.column c) = (storedIn row.entries c).map (·, false) := by
  rw [stored_row hrow, storedIn, Multiset.map_coe, List.map_map]
  refine congrArg _ (List.map_congr_left fun e he => ?_)
  have hlink := hnone e (by simpa using List.mem_of_mem_filter he)
  simp [hlink]

theorem sum_storedIn (l : Incidence ColumnRef) (c : ColumnRef) :
    ((storedIn l c).map Extended.rational).sum =
      Incidence.weight (l.entries.toList.map fun e => (e.partner, e.value)) c := by
  rw [storedIn, Multiset.map_coe, Multiset.sum_coe]
  induction l.entries.toList with
  | nil => rfl
  | cons e es ih =>
    rw [List.map_cons, Incidence.weight_cons, ← ih, List.filter_cons]
    by_cases he : e.partner = c
    · simp [he]
    · have hindex : Reference.index e.partner ≠ Reference.index c :=
        fun heq => he (Reference.index_injective heq)
      simp [he, hindex]

/-- The coefficients in a row without links. -/
theorem amount_of_unlinked (hrow : m.row? r = some row)
    (hnone : ∀ e ∈ row.entries.entries, e.link = none) (c : ColumnRef) :
    m.amount c r = ((m.grid.stored (.column c) (.row r)).map (·.1.rational)).sum +
      Incidence.weight (row.entries.entries.toList.map fun e => (e.partner, e.value)) c := by
  rw [amount, content, Multiset.map_add, Multiset.sum_add, stored_row_of_unlinked hrow hnone c,
    ← sum_storedIn, Multiset.filter_eq_self.mpr (by simp), Multiset.map_map, Multiset.map_map,
    Multiset.map_map]
  rfl

/-! ## Delaying -/

theorem Sound.delay (hm : m.Sound) (hrow : m.row? r = some row) (hinactive : row.isActive = false) :
    (m.modifyRow r ({ · with delayed := true })).Sound := by
  have hgrid : (m.modifyRow r ({ · with delayed := true })).grid = m.grid := by
    rw [grid_modifyRow hrow rfl rfl, ← cells_row hrow, Grid.update, Function.update_eq_self]
  have hhas (x : Line) : (m.modifyRow r ({ · with delayed := true })).Has x ↔ m.Has x := by
    cases x with
    | column c => exact Iff.rfl
    | row s =>
      rw [Has, row?_modifyRow]
      split <;> simp [Has]
  have horder {x : Line} (hx : x ≠ .row r) :
      (m.modifyRow r ({ · with delayed := true })).InOrder x ↔ m.InOrder x := by
    cases x with
    | column c => exact Iff.rfl
    | row s =>
      rw [InOrder, InOrder, row?_modifyRow, if_neg fun heq => hx (congrArg Line.row heq).symm]
  have hdisordered : ¬ (m.modifyRow r ({ · with delayed := true })).InOrder (.row r) := by
    rw [InOrder, row?_modifyRow, if_pos rfl, hrow, Option.map_some]
    exact fun h => by cases h _ rfl
  refine ⟨hgrid ▸ hm.wired, countedAt_modifyRow hrow hm.counted (hm.counted (.row r) row hrow),
    hm.tidy.of_grid hgrid (fun x => (hhas x).mpr) (fun x hx => ?_) fun x hx => ?_⟩
  · exact (horder fun heq => hdisordered (heq ▸ hx)).mp hx
  · refine (horder fun heq => ?_).mpr (hm.tidy.inOrder hx)
    rw [heq, isActive_row hrow, hinactive] at hx
    cases hx

theorem ends_delayOrder_missing (h : m.row? r = none) {Q : Unit → ConstraintMatrix → Prop}
    {E : LpError → ConstraintMatrix → Prop} :
    Ends (delayOrder r) m Q E ↔ E (.misuse (.rowMissing r)) m := by
  rw [delayOrder, Ends.bind_iff, ends_getRow_missing h]

/-- A row begins to delay its order, or nothing happens. -/
theorem ends_delayOrder (hm : m.Sound) (hrow : m.row? r = some row) :
    Ends (delayOrder r) m (fun _ m' => Revised m m' m.amount) fun _ m' => m' = m := by
  rw [delayOrder, Ends.bind_iff, ends_getRow hrow, Ends.ite_iff]
  refine ⟨fun _ => rfl, fun h => ?_⟩
  have hinactive : row.isActive = false := by
    cases hactive : row.isActive <;> simp_all
  rw [ends_updateRow hrow]
  have hgrid : (m.modifyRow r ({ · with delayed := true })).grid = m.grid := by
    rw [grid_modifyRow hrow rfl rfl, ← cells_row hrow, Grid.update, Function.update_eq_self]
  refine ⟨hm.delay hrow hinactive, .modifyRow m r fun _ => rfl, ?_, fun _ => by
    rw [linked, linked, hgrid]⟩
  funext c s
  rw [amount_eq_total, amount_eq_total, hgrid]

/-! ## Merging -/

/-- A row after it was merged. -/
structure Merged (row row' : Row) : Prop where
  entries : row'.entries = row.entries.merge
  delayed : row'.delayed = false
  places : Forgetting.allButPlaces.row row' = Forgetting.allButPlaces.row row

section Merged

variable {row' : Row} (hm : m.Sound) (hrow : m.row? r = some row) (h : Merged row row')
  (hunlinked : row.isUnlinked = true)

include h in
theorem Merged.isActive : row'.isActive = row.isActive := by
  have hposition := Forgetting.row_congr Row.activePosition h.places fun _ => rfl
  rw [Row.isActive, Row.isActive, hposition]

theorem link_merge {e : Entry ColumnRef} (he : e ∈ l.merge.entries) : e.link = none :=
  (Incidence.mem_entries_merge he).1

include hrow h in
theorem grid_merged : (m.modifyRow r fun _ => row').grid =
    m.grid.update (.row r) (row.entries.merge.entries.map (Entry.map .column)) := by
  rw [grid_modifyRow hrow h.isActive (by rw [h.entries]; rfl), h.entries]

include hrow in
theorem row?_replaced : (m.modifyRow r fun _ => row').row? r = some row' := by
  rw [row?_modifyRow, if_pos rfl, hrow, Option.map_some]

include hm hrow in
theorem isFinite_of_entry {e : Entry ColumnRef} (he : e ∈ row.entries.entries) :
    e.value.isFinite = true := by
  obtain ⟨i, hi⟩ := Array.getElem?_of_mem he
  exact (hm.tidy.value_of_cell (cell_of_row hrow hi)).1

include hm hrow h hunlinked

theorem amount_merged : (m.modifyRow r fun _ => row').amount = m.amount := by
  funext c s
  by_cases hs : s = r
  · subst hs
    have hnew : ∀ e ∈ row'.entries.entries, e.link = none := by
      rw [h.entries]
      exact fun e he => link_merge he
    rw [amount_of_unlinked (row?_replaced hrow) hnew,
      amount_of_unlinked hrow fun e he => hm.link_eq_none_of_isUnlinked hrow hunlinked he,
      grid_merged hrow h, Grid.stored_update_of_ne (by simp), h.entries,
      Incidence.weight_merge fun e he => isFinite_of_entry hm hrow he]
  · rw [amount_eq_total, amount_eq_total, grid_merged hrow h, Grid.stored_update_of_ne (by simp),
      Grid.stored_update_of_ne (by simpa using hs)]

omit hm hunlinked in
/-- What columns have is not affected. -/
theorem linked_merged (c : ColumnRef) (s : RowRef) :
    (m.modifyRow r fun _ => row').linked c s = m.linked c s := by
  rw [linked, linked, grid_merged hrow h, Grid.stored_update_of_ne (by simp)]

/-- What a merged row stores for a column has no link, and is a sum of what it stored before. -/
theorem mem_stored_merged {y : Line} {v : Extended} {b : Bool}
    (hv : (v, b) ∈ (m.modifyRow r fun _ => row').grid.stored (.row r) y) :
    (v.isFinite = true ∧ v ≠ 0) ∧ ∃ v', (v', false) ∈ m.grid.stored (.row r) y := by
  rw [grid_merged hrow h] at hv
  obtain ⟨i, e, he, hpartner, hvalue, -⟩ := Grid.mem_stored_iff.mp hv
  rw [Grid.cell, Grid.cells_update_self, Array.getElem?_map, Option.map_eq_some_iff] at he
  obtain ⟨e', he', rfl⟩ := he
  have hmem : e' ∈ row.entries.merge.entries := Array.mem_of_getElem? he'
  obtain ⟨-, hne, e'', he'', hsame⟩ := Incidence.mem_entries_merge hmem
  refine ⟨?_, e''.value, ?_⟩
  · rw [← hvalue]
    have hfinite := Incidence.isFinite_merge (fun e he => isFinite_of_entry hm hrow he) hmem
    exact ⟨hfinite, hne⟩
  · obtain ⟨j, hj⟩ := Array.getElem?_of_mem he''
    refine Grid.mem_stored_iff.mpr ⟨j, _, cell_of_row hrow hj, ?_, rfl, ?_⟩
    · rw [← hpartner]
      exact congrArg Line.column hsame
    · simp [Entry.map, hm.link_eq_none_of_isUnlinked hrow hunlinked he'']

omit hm hunlinked in
/-- A merged row has at most one entry for each column. -/
theorem card_stored_merged (y : Line) :
    ((m.modifyRow r fun _ => row').grid.stored (.row r) y).card ≤ 1 := by
  rw [grid_merged hrow h, Grid.stored, Grid.cells_update_self, Multiset.coe_card, List.length_map,
    Array.toList_map, List.filter_map, List.length_map]
  refine row.entries.length_filter_merge_le_one fun e e' he he' => Line.column_injective ?_
  exact (of_decide_eq_true he).trans (of_decide_eq_true he').symm

theorem tidy_merged : (m.modifyRow r fun _ => row').Tidy := by
  have hothers {x : Line} (hx : x ≠ .row r) :
      (m.modifyRow r fun _ => row').grid.stored x = m.grid.stored x := by
    rw [grid_merged hrow h, Grid.stored_update_of_ne hx]
  have hhas (x : Line) : (m.modifyRow r fun _ => row').Has x ↔ m.Has x := by
    cases x with
    | column c => exact Iff.rfl
    | row s =>
      rw [Has, row?_modifyRow]
      split <;> simp [Has]
  have horder (x : Line) (hx : x ≠ .row r) :
      (m.modifyRow r fun _ => row').InOrder x ↔ m.InOrder x := by
    cases x with
    | column c => exact Iff.rfl
    | row s =>
      rw [InOrder, InOrder, row?_modifyRow, if_neg fun heq => hx (congrArg Line.row heq).symm]
  have hordered : (m.modifyRow r fun _ => row').InOrder (.row r) :=
    (inOrder_row (row?_replaced hrow)).mpr h.delayed
  have hactive : (m.modifyRow r fun _ => row').grid.isActive = m.grid.isActive := by
    rw [grid_merged hrow h, Grid.isActive_update]
  -- The merged row refers to no line that it did not refer to before.
  have hmem {y : Line} {v : Extended} {b : Bool}
      (hv : (v, b) ∈ (m.modifyRow r fun _ => row').grid.stored (.row r) y) :=
    mem_stored_merged hm hrow h hunlinked hv
  have hzero {y : Line} (hy : m.grid.stored (.row r) y = 0) :
      (m.modifyRow r fun _ => row').grid.stored (.row r) y = 0 := by
    refine Multiset.eq_zero_of_forall_notMem ?_
    rintro ⟨v, b⟩ hv
    obtain ⟨-, v', hv'⟩ := hmem hv
    rw [hy] at hv'
    exact Multiset.notMem_zero _ hv'
  refine ⟨fun {x y} hxy => ?_, fun {x y v b} hv => ?_, fun {x y} hx => ?_, fun {x y v} hv => ?_,
    fun {x} hx => ?_⟩
  · refine (hhas y).mpr (hm.tidy.has (x := x) fun hnone => hxy ?_)
    by_cases hx : x = .row r
    · subst hx
      exact hzero hnone
    · rw [hothers hx, hnone]
  · by_cases hx : x = .row r
    · subst hx
      exact (hmem hv).1
    · rw [hothers hx] at hv
      exact hm.tidy.storable hv
  · by_cases hr : x = .row r
    · subst hr
      exact card_stored_merged hrow h y
    · rw [hothers hr]
      exact hm.tidy.single ((horder x hr).mp hx)
  · by_cases hx : x = .row r
    · subst hx
      obtain ⟨-, v', hv'⟩ := hmem hv
      have hback := hm.tidy.oneSided hv'
      by_cases hy : y = .row r
      · subst hy
        exact hzero hback
      · rw [hothers hy, hback]
    · rw [hothers hx] at hv
      have hback := hm.tidy.oneSided hv
      by_cases hy : y = .row r
      · subst hy
        exact hzero hback
      · rw [hothers hy, hback]
  · by_cases hr : x = .row r
    · subst hr
      exact hordered
    · rw [hactive] at hx
      exact (horder x hr).mpr (hm.tidy.inOrder hx)

theorem sound_merged : (m.modifyRow r fun _ => row').Sound where
  wired := by
    rw [grid_merged hrow h]
    refine hm.wired.update (fun i e he => ?_) fun e he => ?_
    · rw [cell_row hrow, Option.map_eq_some_iff] at he
      obtain ⟨e', he', rfl⟩ := he
      exact hm.link_eq_none_of_isUnlinked hrow hunlinked (Array.mem_of_getElem? he')
    · obtain ⟨e', he', rfl⟩ := Array.mem_map.mp he
      exact link_merge he'
  counted := countedAt_modifyRow hrow hm.counted (by
    rw [h.entries]
    exact row.entries.counted_merge)
  tidy := tidy_merged hm hrow h hunlinked

end Merged

/-- A row is merged, or nothing happens. -/
theorem ends_mergeRow (hm : m.Sound) (hrow : m.row? r = some row) :
    Ends (mergeRow r) m (fun _ m' => Revised m m' m.amount ∧ m'.InOrder (.row r))
      fun _ m' => m' = m := by
  rw [mergeRow, Ends.bind_iff, ends_getRow hrow, Ends.ite_iff]
  refine ⟨fun _ => rfl, fun hlinked => ?_⟩
  have hunlinked : row.isUnlinked = true := by simpa using hlinked
  rw [Ends.bind_iff, Ends.get_iff, ends_updateRow hrow]
  have hmerged : Merged row { row.expireActivity with
      entries := row.entries.merge, delayed := false, integral := isIntegralRow m
        { row.expireActivity with entries := row.entries.merge, delayed := false } } :=
    ⟨rfl, rfl, rfl⟩
  refine ⟨⟨sound_merged hm hrow hmerged hunlinked, ?_, amount_merged hm hrow hmerged hunlinked,
    fun _ => linked_merged hrow hmerged _ _⟩, (inOrder_row (row?_replaced hrow)).mpr rfl⟩
  rw [modifyRow_congr hrow (g := fun old => { old.expireActivity with
    entries := row.entries.merge, delayed := false, integral := isIntegralRow m
      { row.expireActivity with entries := row.entries.merge, delayed := false } }) rfl]
  exact .modifyRow m r fun _ => rfl

theorem ends_forceOrder_missing (h : m.row? r = none) {Q : Unit → ConstraintMatrix → Prop}
    {E : LpError → ConstraintMatrix → Prop} :
    Ends (forceOrder r) m Q E ↔ E (.misuse (.rowMissing r)) m := by
  rw [forceOrder, Ends.bind_iff, ends_getRow_missing h]

/-- A row is in order afterwards, or nothing happens. -/
theorem ends_forceOrder (hm : m.Sound) (hrow : m.row? r = some row) :
    Ends (forceOrder r) m (fun _ m' => Revised m m' m.amount ∧ m'.InOrder (.row r))
      fun _ m' => m' = m := by
  rw [forceOrder, Ends.bind_iff, ends_getRow hrow, Ends.ite_iff]
  exact ⟨fun _ => ends_mergeRow hm hrow,
    fun hordered => ⟨hm.revised, (inOrder_row hrow).mpr (Bool.eq_false_iff.mpr hordered)⟩⟩

end ConstraintMatrix

end CertifiedLp
