import Mathlib
import CertifiedLp.Proofs.Matrix.Activation
import CertifiedLp.Proofs.Matrix.Pairs

/-!
# Linking

A coefficient that is stored in one line gets its counterpart in the other one. The two entries are
connected first, and then each of them is moved into the active part of its list if the other line
is active. A loop over the positions of a line links all of its entries: an entry that is moved to
the front is replaced by one that was linked before.
-/

namespace CertifiedLp

namespace Grid

variable {g g' : Grid} {x y : Line} {i n : Nat} {f : Nat → Nat} {e : Entry Line}

/-- Staying where they are is a way to rearrange entries. -/
theorem Rearranges.refl (g : Grid) (x : Line) : Rearranges g g x id where
  forth he := he
  back he := ⟨_, rfl, he⟩
  perm := .refl _
  others {y} _ := by
    have hid : retold x id = id := by
      funext e
      rw [retold]
      split <;> simp
    rw [hid, Array.map_id]
  nrActive _ := rfl
  isActive := rfl

/-- The first entries of a line are linked. -/
def LinkedBelow (g : Grid) (x : Line) (n : Nat) : Prop :=
  ∀ j e, j < n → g.cell x j = some e → e.link.isSome = true

theorem Rearranges.linkedBelow_of_ne (h : Rearranges g g' y f) (hxy : x ≠ y)
    (hg : g.LinkedBelow x n) : g'.LinkedBelow x n := by
  intro j e hj he
  rw [h.cell_of_ne hxy] at he
  obtain ⟨e, hold, rfl⟩ := Option.map_eq_some_iff.mp he
  rw [isSome_link_retold]
  exact hg j e hj hold

end Grid

namespace ConstraintMatrix

variable {m t u : ConstraintMatrix} {c : ColumnRef} {r : RowRef} {row : Row} {x y : Line}
variable {i k n : Nat} {v : Extended} {e : Entry Line} {E : LpError → ConstraintMatrix → Prop}

theorem Rearranged.refl (m : ConstraintMatrix) (x : Line) : m.Rearranged m x id :=
  ⟨.refl _ x, rfl, fun h => h⟩

/-- Move a linked entry of the rest into the active part, if its partner is active. -/
theorem ends_activate_if {b : Bool} {exempt : Line → Nat → Prop} (ht : t.grid.Mirrored)
    (hbounded : ∀ z, t.grid.nrActive z ≤ (t.grid.cells z).size)
    (hparted : t.grid.Parted exempt t.grid.InUse) (he : t.grid.cell x i = some e)
    (hlink : e.link.isSome = true) (hexempt : ∀ j, exempt x j → j = i)
    (hrest : t.grid.nrActive x ≤ i) (hb : t.grid.isActive e.partner = b) :
    Ends (if b = true then rearrange x (·.activate i) else pure ()) t (fun _ u => ∃ f,
      t.Rearranged u x f ∧ (∀ z, u.grid.nrActive z ≤ (u.grid.cells z).size) ∧
      u.grid.Parted (fun z j => z ≠ x ∧ exempt z j) u.grid.InUse ∧
      (f i = if b = true then u.grid.nrActive x - 1 else i) ∧
      (t.grid.LinkedBelow x i → u.grid.LinkedBelow x (i + 1))) E := by
  cases b with
  | false =>
    refine ⟨id, .refl t x, hbounded, fun z j e' he' hnot => ?_, rfl, fun hbelow j e' hj he' => ?_⟩
    · by_cases hz : z = x
      · subst hz
        by_cases hj : j = i
        · subst hj
          rw [he] at he'
          cases he'
          refine iff_of_false (by omega) fun hused => ?_
          rw [Grid.InUse, hb] at hused
          cases hused.2
        · exact hparted z j e' he' fun hex => hj (hexempt j hex)
      · exact hparted z j e' he' fun hex => hnot ⟨hz, hex⟩
    · rcases Nat.lt_succ_iff_lt_or_eq.mp hj with hlt | rfl
      · exact hbelow j e' hlt he'
      · rw [he] at he'
        cases he'
        exact hlink
  | true =>
    refine (ends_activate ht (has_of_cell he) (Grid.lt_size_of_cell he) hrest).mono_ok ?_
    rintro _ u ⟨f, hf, hn, hfi, hfj, hfn⟩
    have hlt := Grid.lt_size_of_cell he
    have hparts (j : Nat) (_ : j < (t.grid.cells x).size) :
        f j < u.grid.nrActive x ↔ j < t.grid.nrActive x ∨ j = i := by
      rw [hn]
      by_cases hji : j = i
      · rw [hji, hfi]
        omega
      · by_cases hjn : j = t.grid.nrActive x
        · rw [hjn, hfn]
          omega
        · rw [hfj j hji hjn]
          omega
    refine ⟨f, hf, fun z => ?_, hf.grid.parted_activate hparted he ⟨hlink, hb⟩ hexempt hparts, ?_,
      fun hbelow j e' hj he' => ?_⟩
    · rw [hf.grid.size_eq]
      by_cases hz : z = x
      · subst hz
        omega
      · rw [hf.grid.nrActive hz]
        exact hbounded z
    · rw [if_pos rfl, hfi, hn, Nat.add_sub_cancel]
    · -- Only the entries at `i` and at the old boundary changed places, and both are linked.
      obtain ⟨j, rfl, hold⟩ := hf.grid.back he'
      have hle : j ≤ i := by
        by_contra hgt
        rw [hfj j (by omega) (by omega)] at hj
        omega
      rcases Nat.lt_or_eq_of_le hle with hlt | rfl
      · exact hbelow j e' hlt hold
      · rw [he] at hold
        cases hold
        exact hlink

/-- A coefficient was connected, and its two entries are moved to the right parts. -/
theorem ends_settlePair (hm : m.Sound) (he : m.grid.cell x i = some ⟨y, v, none⟩) (hxy : x ≠ y)
    (ht : t.grid = m.grid.connect x i y v) (hcounted : ∀ z, t.CountedAt z) :
    Ends (if m.grid.isActive x = true then rearrange y (·.activate (m.grid.cells y).size)
        else pure ()) t
      (fun _ u => Ends (if m.grid.isActive y = true then rearrange x (·.activate i) else pure ()) u
        (fun _ u => u.grid.Wired ∧ (∀ z, u.CountedAt z) ∧ t.SameContent u ∧
          (u.grid.cells x).size = (m.grid.cells x).size ∧
          (m.grid.LinkedBelow x i → u.grid.LinkedBelow x (i + 1)) ∧
          ∃ e, u.grid.cell y (if m.grid.isActive x = true then u.grid.nrActive y - 1
            else (m.grid.cells y).size) = some e ∧ e.link.isSome = true) E) E := by
  have hmirrored : t.grid.Mirrored := by
    rw [ht]
    exact Grid.mirrored_connect hxy he hm.wired.mirrored
  have hnr : t.grid.nrActive = m.grid.nrActive := by
    rw [ht]
    rfl
  have hactive : t.grid.isActive = m.grid.isActive := by
    rw [ht]
    rfl
  have hbounded (z : Line) : t.grid.nrActive z ≤ (t.grid.cells z).size := by
    rw [hnr, ht, Grid.size_connect hxy he]
    exact Nat.le_trans (hm.wired.bounded z) (Nat.le_add_right _ _)
  have hparted : t.grid.Parted
      (fun z j => (z = x ∧ j = i) ∨ (z = y ∧ j = (m.grid.cells y).size)) t.grid.InUse := by
    rw [ht]
    exact Grid.parted_connect hxy he hm.wired
  have hcellx : t.grid.cell x i = some ⟨y, v, some (m.grid.cells y).size⟩ := by
    rw [ht, Grid.cell_connect hxy he, if_pos ⟨rfl, rfl⟩]
  have hcelly : t.grid.cell y (m.grid.cells y).size = some ⟨x, v, some i⟩ := hmirrored.back hcellx
  have hunused : m.grid.nrActive x ≤ i := by
    by_contra hlt
    have hused := (hm.wired.parted x i _ he id).mp (by omega)
    cases hused.1
  refine (ends_activate_if (b := m.grid.isActive x) hmirrored hbounded hparted hcelly rfl
    (fun j hj => ?_) ?_ (congrFun hactive x)).mono_ok ?_
  · rcases hj with ⟨hyx, -⟩ | ⟨-, hj⟩
    · exact absurd hyx.symm hxy
    · exact hj
  · rw [hnr]
    exact hm.wired.bounded y
  rintro _ u ⟨f, hf, hbounded', hparted', hfy, -⟩
  have hcellx' : u.grid.cell x i = some ⟨y, v, some (f (m.grid.cells y).size)⟩ := by
    rw [hf.grid.cell_of_ne hxy, hcellx, Option.map_some, Grid.retold, if_pos rfl, Option.map_some]
  have hcelly' := hf.grid.forth hcelly
  refine (ends_activate_if (b := m.grid.isActive y) (hf.grid.mirrored hmirrored) hbounded' hparted'
    hcellx' rfl (fun j hj => ?_) ?_ ?_).mono_ok ?_
  · rcases hj.2 with ⟨-, hj⟩ | ⟨hyx, -⟩
    · exact hj
    · exact absurd hyx hxy
  · rw [hf.grid.nrActive hxy, hnr]
    exact hunused
  · rw [hf.grid.isActive, hactive]
  rintro _ w ⟨f', hf', hbounded'', hparted'', -, hbelow⟩
  refine ⟨⟨hf'.grid.mirrored (hf.grid.mirrored hmirrored), ?_, hbounded''⟩,
    hf'.counted (hf.counted hcounted), hf.sameContent.trans hf'.sameContent, ?_, ?_, ?_⟩
  · intro z j e' he' _
    refine hparted'' z j e' he' ?_
    rintro ⟨hzx, hzy, ⟨hz, -⟩ | ⟨hz, -⟩⟩
    · exact hzx hz
    · exact hzy hz
  · rw [hf'.grid.size_eq, hf.grid.size_eq, ht, Grid.size_connect hxy he, if_neg hxy, add_zero]
  · intro hold
    refine hbelow (hf.grid.linkedBelow_of_ne hxy fun j e' hj he' => ?_)
    rw [ht, Grid.cell_connect hxy he, if_neg fun h => by omega, if_neg fun h => hxy h.1] at he'
    exact hold j e' hj he'
  · refine ⟨Grid.retold x f' ⟨x, v, some i⟩, ?_, by simp⟩
    rw [hf'.grid.nrActive hxy.symm, ← hfy, hf'.grid.cell_of_ne hxy.symm, hcelly', Option.map_some]

/-! ## What is stored -/

/-- An unlinked entry of a line in order is all that the line stores for its partner. -/
theorem Tidy.stored_eq_singleton (hm : m.Tidy) (hx : m.InOrder x) {b : Bool}
    (hv : (v, b) ∈ m.grid.stored x y) : m.grid.stored x y = {(v, b)} := by
  obtain ⟨rest, hrest⟩ := Multiset.exists_cons_of_mem hv
  have hcard := hm.single hx (y := y)
  rw [hrest, Multiset.card_cons] at hcard
  have hzero : rest = 0 := Multiset.card_eq_zero.mp (by omega)
  rw [hrest, hzero]
  rfl

theorem Tidy.stored_connect (hm : m.Tidy) (hx : m.InOrder x)
    (he : m.grid.cell x i = some ⟨y, v, none⟩) (hxy : x ≠ y) :
    (m.grid.connect x i y v).stored = m.storedWith x y {(v, true)} {(v, true)} := by
  have hmem : (v, false) ∈ m.grid.stored x y :=
    Grid.mem_stored_iff.mpr ⟨i, _, he, rfl, rfl, rfl⟩
  funext a b
  have hchange := Grid.stored_connect hxy he a b
  by_cases hforth : a = x ∧ b = y
  · obtain ⟨rfl, rfl⟩ := hforth
    rw [storedWith_forth]
    rw [if_pos ⟨rfl, rfl⟩, if_neg fun h => hxy h.1, if_pos ⟨rfl, rfl⟩, add_zero,
      hm.stored_eq_singleton hx hmem, add_comm] at hchange
    exact add_left_cancel hchange
  · by_cases hback : a = y ∧ b = x
    · obtain ⟨rfl, rfl⟩ := hback
      rw [storedWith_back hxy]
      rwa [if_neg fun h => hxy h.1.symm, if_pos ⟨rfl, rfl⟩, if_neg fun h => hxy h.1.symm, add_zero,
        add_zero, hm.oneSided hmem, zero_add] at hchange
    · rw [storedWith_of_ne hforth hback]
      rwa [if_neg fun h => hforth ⟨h.1, h.2.symm⟩, if_neg fun h => hback ⟨h.1, h.2.symm⟩,
        if_neg fun h => hforth ⟨h.1, h.2.symm⟩, add_zero, add_zero, add_zero] at hchange

/-- An unlinked entry of a line got a counterpart. -/
structure Linking (m m' : ConstraintMatrix) (x : Line) (i : Nat) (y : Line) (v : Extended) :
    Prop where
  updated : Updated m m' x y {(v, true)} {(v, true)}
  size : (m'.grid.cells x).size = (m.grid.cells x).size
  linkedBelow : m.grid.LinkedBelow x i → m'.grid.LinkedBelow x (i + 1)

theorem Sound.linking {m' : ConstraintMatrix} (hm : m.Sound) (hx : m.InOrder x)
    (he : m.grid.cell x i = some ⟨y, v, none⟩) (hxy : x ≠ y) (ht : t.grid = m.grid.connect x i y v)
    (htw : t.without .entries = m.without .entries) (hwired : m'.grid.Wired)
    (hcounted : ∀ z, m'.CountedAt z) (hcontent : t.SameContent m')
    (hsize : (m'.grid.cells x).size = (m.grid.cells x).size)
    (hbelow : m.grid.LinkedBelow x i → m'.grid.LinkedBelow x (i + 1)) : Linking m m' x i y v := by
  have hwithout := hcontent.without.trans htw
  have hstored : m'.grid.stored = m.storedWith x y {(v, true)} {(v, true)} := by
    rw [hcontent.stored, ht, hm.tidy.stored_connect hx he hxy]
  have hvalue (w : Extended) (s : Bool) (hw : (w, s) ∈ ({(v, true)} : Multiset (Extended × Bool))) :
      w.isFinite = true ∧ w ≠ 0 := by
    obtain ⟨rfl, -⟩ := Prod.mk.inj (Multiset.mem_singleton.mp hw)
    exact hm.tidy.value_of_cell he
  refine ⟨⟨⟨hwired, hcounted, ?_⟩, hwithout, hstored⟩, hsize, hbelow⟩
  exact hm.tidy.storedWith hwithout hstored hxy (fun _ => has_of_cell he)
    (fun _ => hm.tidy.has_partner he) hvalue hvalue (fun _ => by simp) (fun _ => by simp)
    (fun w hw => by simp at hw) fun w hw => by simp at hw

/-! ## Appending an entry -/

/-- The matrix after an entry was appended to a column. -/
def pushInColumn (m : ConstraintMatrix) (c : ColumnRef) (e : Entry RowRef) : ConstraintMatrix :=
  m.modifyColumn c fun column => { column with entries := column.entries.push e }

/-- The matrix after an entry was appended to a row. -/
def pushInRow (m : ConstraintMatrix) (r : RowRef) (e : Entry ColumnRef) : ConstraintMatrix :=
  m.modifyRow r fun row => { row with entries := row.entries.push e }

section PushInColumn

variable (hc : m.Has (.column c)) (e : Entry RowRef)

theorem without_pushInColumn (m : ConstraintMatrix) (c : ColumnRef) (e : Entry RowRef) :
    (m.pushInColumn c e).without .entries = m.without .entries :=
  without_modifyColumn _ _ fun _ => rfl

include hc

theorem grid_pushInColumn : (m.pushInColumn c e).grid = m.grid.push (.column c) (e.map .row) := by
  rw [pushInColumn, grid_modifyColumn_entries hc fun l => Incidence.nrActive_push l e, Grid.push,
    cells_column, Incidence.entries_push, Array.map_push]

theorem countedAt_pushInColumn (hm : ∀ z, m.CountedAt z) (z : Line) :
    (m.pushInColumn c e).CountedAt z :=
  countedAt_modifyColumn_entries (F := (·.push e)) hc hm
    (Incidence.counted_push (hm (.column c)) e) z

end PushInColumn

section PushInRow

variable (hrow : m.row? r = some row) (e : Entry ColumnRef)

theorem without_pushInRow (m : ConstraintMatrix) (r : RowRef) (e : Entry ColumnRef) :
    (m.pushInRow r e).without .entries = m.without .entries :=
  without_modifyRow _ _ fun _ => rfl

include hrow

theorem row?_pushInRow :
    (m.pushInRow r e).row? r = some { row with entries := row.entries.push e } := by
  rw [pushInRow, row?_modifyRow, if_pos rfl, hrow, Option.map_some]

theorem grid_pushInRow : (m.pushInRow r e).grid = m.grid.push (.row r) (e.map .column) := by
  rw [pushInRow, grid_modifyRow_entries hrow fun l => Incidence.nrActive_push l e, Grid.push,
    cells_row hrow, Incidence.entries_push, Array.map_push]

theorem countedAt_pushInRow (hm : ∀ z, m.CountedAt z) (z : Line) :
    (m.pushInRow r e).CountedAt z :=
  countedAt_modifyRow_entries (F := (·.push e)) hrow hm
    (Incidence.counted_push (hm (.row r) row hrow) e) z

end PushInRow

/-! ## Mirroring an entry -/

section MirrorInRow

variable (hm : m.Sound) (he : (m.column c).entries.entries[i]? = some ⟨r, v, none⟩)
  (hrow : m.row? r = some row)

/-- The matrix after an entry of a column got a counterpart, before any of the two moved. -/
def connectInRow (m : ConstraintMatrix) (r : RowRef) (c : ColumnRef) (v : Extended) (i n : Nat) :
    ConstraintMatrix :=
  (m.pushInRow r ⟨c, v, some i⟩).modifyColumn c fun column =>
    { column with entries := column.entries.setLink i (some n) }

theorem without_connectInRow (m : ConstraintMatrix) (r : RowRef) (c : ColumnRef) (v : Extended)
    (i n : Nat) : (m.connectInRow r c v i n).without .entries = m.without .entries := by
  rw [← without_pushInRow m r ⟨c, v, some i⟩]
  exact without_modifyColumn _ _ fun _ => rfl

include he in
theorem has_of_entry : m.Has (.column c) :=
  has_of_cell (i := i) (e := ⟨.row r, v, none⟩) (by
    rw [cell_column, he]
    rfl)

include he hrow

theorem grid_connectInRow : (m.connectInRow r c v i row.entries.size).grid =
    m.grid.connect (.column c) i (.row r) v := by
  have hc : (m.pushInRow r ⟨c, v, some i⟩).Has (.column c) := has_of_entry he
  have hsize : row.entries.size = (m.grid.cells (.row r)).size := by
    rw [cells_row hrow, Array.size_map, Incidence.size]
  have hcolumn : (m.pushInRow r ⟨c, v, some i⟩).column c = m.column c := rfl
  have hcells : (m.grid.push (.row r) ⟨.column c, v, some i⟩).cells (.column c) =
      (m.column c).entries.entries.map (Entry.map .row) := by
    rw [Grid.push, Grid.cells_update_of_ne (by simp), cells_column]
  rw [connectInRow, grid_modifyColumn_entries hc fun l => Incidence.nrActive_setLink l _ _,
    hcolumn, Incidence.entries_setLink, grid_pushInRow hrow, Grid.connect, Grid.modify, hcells,
    ← hsize, map_modify (g := ({ · with link := some row.entries.size })) Line.row _ _ fun _ => rfl]
  rfl

include hm in
theorem countedAt_connectInRow (z : Line) :
    (m.connectInRow r c v i row.entries.size).CountedAt z := by
  have hc : (m.pushInRow r ⟨c, v, some i⟩).Has (.column c) := has_of_entry he
  exact countedAt_modifyColumn_entries (F := (·.setLink i (some row.entries.size))) hc
    (countedAt_pushInRow hrow _ hm.counted)
    (Incidence.counted_setLink (hm.counted (.column c)) he _) z

end MirrorInRow

/-- Storing the counterpart of an entry of a column links the entry, and the position that is
returned is that of a linked entry. -/
theorem ends_mirrorInRow (hm : m.Sound)
    (he : (m.column c).entries.entries[i]? = some ⟨r, v, none⟩) :
    Ends (mirrorInRow r c v i) m (fun n m' => m.Linking m' (.column c) i (.row r) v ∧
      ∃ row, m'.row? r = some row ∧ (row.entries.link? n).isSome = true) E := by
  have hcell : m.grid.cell (.column c) i = some ⟨.row r, v, none⟩ := cell_of_column he
  obtain ⟨row, hrow⟩ := Option.isSome_iff_exists.mp (hm.tidy.has_partner hcell)
  have hstorable := hm.tidy.value_of_cell hcell
  have hsize : (m.grid.cells (.row r)).size = row.entries.size := by
    rw [cells_row hrow, Array.size_map, Incidence.size]
  have hsettle := ends_settlePair (E := E) hm hcell (by simp) (grid_connectInRow he hrow)
    (countedAt_connectInRow hm he hrow)
  have hactive : m.grid.isActive (.column c) = (m.column c).isActive := rfl
  rw [hsize, hactive, isActive_row hrow] at hsettle
  simp only [mirrorInRow, checkStorable, Ends.bind_iff]
  rw [if_neg (by simpa [Extended.isZero, Extended.isInfinite, hstorable.1] using hstorable.2)]
  simp only [Ends.pure_iff, ends_getColumn, ends_getRow hrow, ends_updateRow hrow, setColumnLink,
    ends_updateColumn]
  rw [Ends.when_iff]
  refine Ends.mono_ok hsettle fun _ u hu => ?_
  rw [Ends.when_iff]
  refine Ends.mono_ok hu fun _ m' hm' => ?_
  obtain ⟨hwired, hcounted, hcontent, hsize', hbelow, e, hcell', hlink⟩ := hm'
  obtain ⟨row', e', hrow', hentry, rfl⟩ := partner_of_cell_row hcell'
  have hlinking : m.Linking m' (.column c) i (.row r) v :=
    hm.linking trivial hcell (by simp) (grid_connectInRow he hrow) (without_connectInRow ..) hwired
      hcounted hcontent hsize' hbelow
  have hfound {n : Nat} (hn : n = if (m.column c).isActive = true
      then m'.grid.nrActive (.row r) - 1 else row.entries.size) :
      (row'.entries.link? n).isSome = true := by
    rw [hn, Incidence.link?, Incidence.entry?, hentry]
    exact hlink
  rw [Ends.ite_iff]
  constructor
  · intro hactive
    simp only [Ends.bind_iff, ends_getRow hrow', Ends.pure_iff]
    refine ⟨hlinking, row', hrow', hfound ?_⟩
    rw [if_pos hactive, nrActive_row hrow']
  · intro hactive
    exact ⟨hlinking, row', hrow', hfound (by rw [if_neg hactive])⟩

section MirrorInColumn

variable (hm : m.Sound) (hrow : m.row? r = some row) (hc : m.Has (.column c))

/-- The matrix after an entry of a row got a counterpart, before any of the two moved. -/
def connectInColumn (m : ConstraintMatrix) (c : ColumnRef) (r : RowRef) (v : Extended)
    (i n : Nat) : ConstraintMatrix :=
  (m.pushInColumn c ⟨r, v, some i⟩).modifyRow r fun row =>
    { row with entries := row.entries.setLink i (some n) }

theorem without_connectInColumn (m : ConstraintMatrix) (c : ColumnRef) (r : RowRef)
    (v : Extended) (i n : Nat) :
    (m.connectInColumn c r v i n).without .entries = m.without .entries := by
  rw [← without_pushInColumn m c ⟨r, v, some i⟩]
  exact without_modifyRow _ _ fun _ => rfl

include hrow hc

theorem grid_connectInColumn : (m.connectInColumn c r v i (m.column c).entries.size).grid =
    m.grid.connect (.row r) i (.column c) v := by
  have hrow' : (m.pushInColumn c ⟨r, v, some i⟩).row? r = some row := hrow
  have hsize : (m.column c).entries.size = (m.grid.cells (.column c)).size := by
    rw [cells_column, Array.size_map, Incidence.size]
  have hcells : (m.grid.push (.column c) ⟨.row r, v, some i⟩).cells (.row r) =
      row.entries.entries.map (Entry.map .column) := by
    rw [Grid.push, Grid.cells_update_of_ne (by simp), cells_row hrow]
  rw [connectInColumn, grid_modifyRow_entries hrow' fun l => Incidence.nrActive_setLink l _ _,
    Incidence.entries_setLink, grid_pushInColumn hc, Grid.connect, Grid.modify, hcells, ← hsize,
    map_modify (g := ({ · with link := some (m.column c).entries.size })) Line.column _ _
      fun _ => rfl]
  rfl

include hm in
theorem countedAt_connectInColumn (he : row.entries.entries[i]? = some ⟨c, v, none⟩) (z : Line) :
    (m.connectInColumn c r v i (m.column c).entries.size).CountedAt z := by
  have hrow' : (m.pushInColumn c ⟨r, v, some i⟩).row? r = some row := hrow
  exact countedAt_modifyRow_entries (F := (·.setLink i (some (m.column c).entries.size))) hrow'
    (countedAt_pushInColumn hc _ hm.counted)
    (Incidence.counted_setLink (hm.counted (.row r) row hrow) he _) z

end MirrorInColumn

/-- Storing the counterpart of an entry of a row links the entry, and the position that is returned
is that of a linked entry. -/
theorem ends_mirrorInColumn (hm : m.Sound) (hr : m.InOrder (.row r)) (hrow : m.row? r = some row)
    (he : row.entries.entries[i]? = some ⟨c, v, none⟩) :
    Ends (mirrorInColumn c r v i) m (fun n m' => m.Linking m' (.row r) i (.column c) v ∧
      ((m'.column c).entries.link? n).isSome = true) E := by
  have hcell : m.grid.cell (.row r) i = some ⟨.column c, v, none⟩ := cell_of_row hrow he
  have hc : m.Has (.column c) := hm.tidy.has_partner hcell
  have hstorable := hm.tidy.value_of_cell hcell
  have hsize : (m.grid.cells (.column c)).size = (m.column c).entries.size := by
    rw [cells_column, Array.size_map, Incidence.size]
  have hrow' : (m.pushInColumn c ⟨r, v, some i⟩).row? r = some row := hrow
  have hsettle := ends_settlePair (E := E) hm hcell (by simp) (grid_connectInColumn hrow hc)
    (countedAt_connectInColumn hm hrow hc he)
  have hactive : m.grid.isActive (.column c) = (m.column c).isActive := rfl
  rw [hsize, hactive, isActive_row hrow] at hsettle
  simp only [mirrorInColumn, checkStorable, Ends.bind_iff]
  rw [if_neg (by simpa [Extended.isZero, Extended.isInfinite, hstorable.1] using hstorable.2)]
  simp only [Ends.pure_iff, ends_getColumn, ends_getRow hrow, setRowLink, ends_updateColumn]
  rw [← pushInColumn, ends_updateRow hrow', ← connectInColumn]
  rw [Ends.when_iff]
  refine Ends.mono_ok hsettle fun _ u hu => ?_
  rw [Ends.when_iff]
  refine Ends.mono_ok hu fun _ m' hm' => ?_
  obtain ⟨hwired, hcounted, hcontent, hsize', hbelow, e, hcell', hlink⟩ := hm'
  obtain ⟨e', hentry, rfl⟩ := partner_of_cell_column hcell'
  have hlinking : m.Linking m' (.row r) i (.column c) v :=
    hm.linking hr hcell (by simp) (grid_connectInColumn hrow hc) (without_connectInColumn ..)
      hwired hcounted hcontent hsize' hbelow
  have hfound {n : Nat} (hn : n = if row.isActive = true
      then m'.grid.nrActive (.column c) - 1 else (m.column c).entries.size) :
      ((m'.column c).entries.link? n).isSome = true := by
    rw [hn, Incidence.link?, Incidence.entry?, hentry]
    exact hlink
  rw [Ends.ite_iff]
  constructor
  · intro hactive
    simp only [Ends.bind_iff, ends_getColumn, Ends.pure_iff]
    exact ⟨hlinking, hfound (by rw [if_pos hactive]; rfl)⟩
  · intro hactive
    exact ⟨hlinking, hfound (by rw [if_neg hactive])⟩

end ConstraintMatrix

end CertifiedLp
