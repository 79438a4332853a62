import Mathlib
import CertifiedLp.Proofs.Matrix.Rearranging

/-!
# Sound matrices

What every operation on a matrix keeps. A matrix is *sound* if its grid is wired, its counts are
right, and what its lines store is *tidy*: between lines that exist, finite and not zero, once, and
in both lists only if linked.
-/

namespace CertifiedLp

namespace ConstraintMatrix

variable {m m' : ConstraintMatrix} {c : ColumnRef} {r : RowRef} {row : Row} {x y z : Line}
variable {f : Nat → Nat} {i k : Nat} {v : Extended} {e : Entry Line}

/-- A line does not have several entries for the same partner. Only a row that delays its order
may have. -/
def InOrder (m : ConstraintMatrix) : Line → Prop
  | .column _ => True
  | .row r => ∀ row, m.row? r = some row → row.delayed = false

/-- What lines store for each other is well-formed. -/
structure Tidy (m : ConstraintMatrix) : Prop where
  has : ∀ {x y}, m.grid.stored x y ≠ 0 → m.Has y
  storable : ∀ {x y v b}, (v, b) ∈ m.grid.stored x y → v.isFinite = true ∧ v ≠ 0
  single : ∀ {x y}, m.InOrder x → (m.grid.stored x y).card ≤ 1
  oneSided : ∀ {x y v}, (v, false) ∈ m.grid.stored x y → m.grid.stored y x = 0
  inOrder : ∀ {x}, m.grid.isActive x = true → m.InOrder x

/-- Links, parts and counts are right, and so is what is stored. -/
structure Sound (m : ConstraintMatrix) : Prop where
  wired : m.grid.Wired
  counted : ∀ x, m.CountedAt x
  tidy : m.Tidy

/-! ## What does not depend on entries -/

section Without

variable (h : m'.without .entries = m.without .entries)

include h

theorem has_congr (x : Line) : m'.Has x ↔ m.Has x := by
  cases x with
  | column c => rw [Has, Has, size_columns_eq_of_without h]
  | row r =>
    have hmap := congrArg Option.isSome (row?_eq_of_without h r)
    rw [Option.isSome_map, Option.isSome_map] at hmap
    rw [Has, Has, hmap]

theorem inOrder_congr (x : Line) : m'.InOrder x ↔ m.InOrder x := by
  cases x with
  | column c => exact Iff.rfl
  | row r =>
    have hone {m m' : ConstraintMatrix} (h : m'.without .entries = m.without .entries)
        (horder : m.InOrder (.row r)) : m'.InOrder (.row r) := by
      intro row' hrow'
      obtain ⟨row, hrow, hsame⟩ := row_eq_of_without h.symm hrow'
      exact (Forgetting.row_congr Row.delayed hsame fun _ => rfl).symm.trans (horder row hrow)
    exact ⟨hone h.symm, hone h⟩

theorem isActive_congr : m'.grid.isActive = m.grid.isActive := by
  funext x
  cases x with
  | column c => exact Forgetting.column_congr Column.isActive (column_eq_of_without h c) fun _ => rfl
  | row r =>
    have hmap := congrArg (Option.any Row.isActive) (row?_eq_of_without h r)
    rw [Option.any_map, Option.any_map] at hmap
    exact hmap

theorem Tidy.congr (htidy : m.Tidy) (hstored : m'.grid.stored = m.grid.stored) : m'.Tidy where
  has hxy := by
    rw [hstored] at hxy
    exact (has_congr h _).mpr (htidy.has hxy)
  storable hv := by
    rw [hstored] at hv
    exact htidy.storable hv
  single hx := by
    rw [hstored]
    exact htidy.single ((inOrder_congr h _).mp hx)
  oneSided hv := by
    rw [hstored] at hv ⊢
    exact htidy.oneSided hv
  inOrder hx := by
    rw [isActive_congr h] at hx
    exact (inOrder_congr h _).mpr (htidy.inOrder hx)

end Without

/-- A matrix with the same entries is tidy, if the lines that are in order and exist fit. -/
theorem Tidy.of_grid (h : m.Tidy) (hgrid : m'.grid = m.grid) (hhas : ∀ x, m.Has x → m'.Has x)
    (horder : ∀ x, m'.InOrder x → m.InOrder x)
    (hactive : ∀ x, m.grid.isActive x = true → m'.InOrder x) : m'.Tidy where
  has hxy := by
    rw [hgrid] at hxy
    exact hhas _ (h.has hxy)
  storable hv := by
    rw [hgrid] at hv
    exact h.storable hv
  single hx := by
    rw [hgrid]
    exact h.single (horder _ hx)
  oneSided hv := by
    rw [hgrid] at hv ⊢
    exact h.oneSided hv
  inOrder hx := by
    rw [hgrid] at hx
    exact hactive _ hx

theorem stored_ne_zero (he : m.grid.cell x i = some e) : m.grid.stored x e.partner ≠ 0 := by
  intro hzero
  have hmem : (e.value, e.link.isSome) ∈ m.grid.stored x e.partner :=
    Grid.mem_stored_iff.mpr ⟨i, e, he, rfl, rfl, rfl⟩
  rw [hzero] at hmem
  exact Multiset.notMem_zero _ hmem

theorem Tidy.has_partner (h : m.Tidy) (he : m.grid.cell x i = some e) : m.Has e.partner :=
  h.has (stored_ne_zero he)

theorem Tidy.value_of_cell (h : m.Tidy) (he : m.grid.cell x i = some e) :
    e.value.isFinite = true ∧ e.value ≠ 0 :=
  h.storable (Grid.mem_stored_iff.mpr ⟨i, e, he, rfl, rfl, rfl⟩)

/-! ## What soundness depends on -/

/-- The entries of the lines, which lines are active, and which rows delay their order. -/
def shape (m : ConstraintMatrix) : ConstraintMatrix :=
  { m.without .details with
    solverColumns := #[], solverRows := #[], firstChangedColumn := 0, firstChangedRow := 0
    synced := true }

theorem shape_modifyColumn (m : ConstraintMatrix) (c : ColumnRef) {g : Column → Column}
    (h : ∀ column, Forgetting.details.column (g column) = Forgetting.details.column column) :
    (m.modifyColumn c g).shape = m.shape := by
  rw [shape, without_modifyColumn m c h]
  rfl

theorem shape_modifyRow (m : ConstraintMatrix) (r : RowRef) {g : Row → Row}
    (h : ∀ row, Forgetting.details.row (g row) = Forgetting.details.row row) :
    (m.modifyRow r g).shape = m.shape := by
  rw [shape, without_modifyRow m r h]
  rfl

section Shape

variable (h : m'.shape = m.shape)

include h

theorem details_column_eq (c : ColumnRef) :
    Forgetting.details.column (m'.column c) = Forgetting.details.column (m.column c) := by
  have hcolumns : (m'.without .details).columns = (m.without .details).columns :=
    congrArg (·.columns) h
  rw [← column_without, ← column_without, column, column, hcolumns]

theorem details_row?_eq (r : RowRef) :
    (m'.row? r).map Forgetting.details.row = (m.row? r).map Forgetting.details.row := by
  have hrows : (m'.without .details).rows = (m.without .details).rows := congrArg (·.rows) h
  rw [← row?_without, ← row?_without, row?, row?, hrows]

theorem grid_eq_of_shape : m'.grid = m.grid := by
  have hentries (c : ColumnRef) : (m'.column c).entries = (m.column c).entries :=
    Forgetting.column_congr Column.entries (details_column_eq h c) fun _ => rfl
  have hactive (c : ColumnRef) : (m'.column c).isActive = (m.column c).isActive :=
    Forgetting.column_congr Column.isActive (details_column_eq h c) fun _ => by
      simp [Forgetting.details, Column.isActive]
  have hrow {β : Type} (g : Row → β) (hg : ∀ row, g (Forgetting.details.row row) = g row)
      (r : RowRef) : (m'.row? r).map g = (m.row? r).map g := by
    have hmap := congrArg (Option.map g) (details_row?_eq h r)
    have hcomp : g ∘ Forgetting.details.row = g := funext hg
    rwa [Option.map_map, Option.map_map, hcomp] at hmap
  rw [grid, grid, Grid.mk.injEq]
  refine ⟨?_, ?_, ?_⟩
  · funext x
    cases x with
    | column c => exact congrArg (fun l => l.entries.map (Entry.map Line.row)) (hentries c)
    | row r =>
      exact congrArg (·.getD #[])
        (hrow (fun row => row.entries.entries.map (Entry.map Line.column)) (fun _ => rfl) r)
  · funext x
    cases x with
    | column c => exact congrArg Incidence.nrActive (hentries c)
    | row r => exact congrArg (·.getD 0) (hrow (fun row => row.entries.nrActive) (fun _ => rfl) r)
  · funext x
    cases x with
    | column c => exact hactive c
    | row r =>
      have hany := congrArg (Option.any id) (hrow Row.isActive (fun _ => by
        simp [Forgetting.details, Row.isActive]) r)
      rwa [Option.any_map, Option.any_map] at hany

theorem has_of_shape (x : Line) : m'.Has x ↔ m.Has x := by
  cases x with
  | column c =>
    have hsize := congrArg (·.columns.size) h
    simp only [shape, without, Array.size_map] at hsize
    rw [Has, Has, hsize]
  | row r =>
    have hmap := congrArg Option.isSome (details_row?_eq h r)
    rw [Option.isSome_map, Option.isSome_map] at hmap
    rw [Has, Has, hmap]

/-- Soundness does not depend on anything else. -/
theorem Sound.congr (hm : m.Sound) : m'.Sound := by
  have hgrid := grid_eq_of_shape h
  have hrow {r : RowRef} {row' : Row} (hrow' : m'.row? r = some row') :
      ∃ row, m.row? r = some row ∧ Forgetting.details.row row = Forgetting.details.row row' := by
    have hmap := details_row?_eq h r
    rw [hrow', Option.map_some] at hmap
    exact Option.map_eq_some_iff.mp hmap.symm
  have horder (x : Line) : m'.InOrder x ↔ m.InOrder x := by
    cases x with
    | column c => exact Iff.rfl
    | row r =>
      constructor
      · intro hx row hold
        have hmap := details_row?_eq h r
        rw [hold, Option.map_some] at hmap
        obtain ⟨row', hrow', hsame⟩ := Option.map_eq_some_iff.mp hmap
        exact (Forgetting.row_congr Row.delayed hsame fun _ => rfl).symm.trans (hx row' hrow')
      · intro hx row' hrow'
        obtain ⟨row, hold, hsame⟩ := hrow hrow'
        exact (Forgetting.row_congr Row.delayed hsame fun _ => rfl).symm.trans (hx row hold)
  refine ⟨by rw [hgrid]; exact hm.wired, fun x => ?_, hm.tidy.of_grid hgrid
    (fun x => (has_of_shape h x).mpr) (fun x => (horder x).mp)
    fun x hx => (horder x).mpr (hm.tidy.inOrder hx)⟩
  cases x with
  | column c =>
    have hentries : (m'.column c).entries = (m.column c).entries :=
      Forgetting.column_congr Column.entries (details_column_eq h c) fun _ => rfl
    rw [CountedAt, hentries]
    exact hm.counted (.column c)
  | row r =>
    intro row' hrow'
    obtain ⟨row, hold, hsame⟩ := hrow hrow'
    have hentries : row.entries = row'.entries :=
      Forgetting.row_congr Row.entries hsame fun _ => rfl
    rw [← hentries]
    exact hm.counted (.row r) row hold

end Shape

/-! ## Changing what two lines store -/

/-- What is stored, when two lines store other things for each other. -/
def storedWith (m : ConstraintMatrix) (x y : Line) (forth back : Multiset (Extended × Bool))
    (a b : Line) : Multiset (Extended × Bool) :=
  if a = x ∧ b = y then forth else if a = y ∧ b = x then back else m.grid.stored a b

section StoredWith

variable {forth back : Multiset (Extended × Bool)} {a b : Line}

theorem storedWith_forth : m.storedWith x y forth back x y = forth := if_pos ⟨rfl, rfl⟩

theorem storedWith_back (hxy : x ≠ y) : m.storedWith x y forth back y x = back := by
  rw [storedWith, if_neg fun h => hxy h.2, if_pos ⟨rfl, rfl⟩]

theorem storedWith_of_ne (h : ¬ (a = x ∧ b = y)) (h' : ¬ (a = y ∧ b = x)) :
    m.storedWith x y forth back a b = m.grid.stored a b := by
  rw [storedWith, if_neg h, if_neg h']

theorem storedWith_symm (hxy : x ≠ y) : m.storedWith y x back forth = m.storedWith x y forth back := by
  funext a b
  by_cases h : a = x ∧ b = y
  · obtain ⟨rfl, rfl⟩ := h
    rw [storedWith_forth, storedWith_back hxy.symm]
  · by_cases h' : a = y ∧ b = x
    · obtain ⟨rfl, rfl⟩ := h'
      rw [storedWith_forth, storedWith_back hxy]
    · rw [storedWith_of_ne h h', storedWith_of_ne h' h]

/-- Something that holds of what two lines store for each other, and of everything else. -/
theorem storedWith_cases {P : Line → Line → Multiset (Extended × Bool) → Prop} (hxy : x ≠ y)
    (hforth : P x y forth) (hback : P y x back) (hothers : ∀ a b, P a b (m.grid.stored a b))
    (a b : Line) : P a b (m.storedWith x y forth back a b) := by
  by_cases h : a = x ∧ b = y
  · obtain ⟨rfl, rfl⟩ := h
    rwa [storedWith_forth]
  · by_cases h' : a = y ∧ b = x
    · obtain ⟨rfl, rfl⟩ := h'
      rwa [storedWith_back hxy]
    · rw [storedWith_of_ne h h']
      exact hothers a b

theorem Tidy.storedWith (hm : m.Tidy) (hwithout : m'.without .entries = m.without .entries)
    (hstored : m'.grid.stored = m.storedWith x y forth back) (hxy : x ≠ y)
    (hx : back ≠ 0 → m.Has x) (hy : forth ≠ 0 → m.Has y)
    (hforth : ∀ v b, (v, b) ∈ forth → v.isFinite = true ∧ v ≠ 0)
    (hback : ∀ v b, (v, b) ∈ back → v.isFinite = true ∧ v ≠ 0)
    (hsingle : m.InOrder x → forth.card ≤ 1) (hsingle' : m.InOrder y → back.card ≤ 1)
    (honce : ∀ v, (v, false) ∈ forth → back = 0) (honce' : ∀ v, (v, false) ∈ back → forth = 0) :
    m'.Tidy where
  has {a b} := by
    rw [hstored, has_congr hwithout]
    exact storedWith_cases (P := fun _ b s => s ≠ 0 → m.Has b) hxy hy hx
      (fun _ _ => hm.has) a b
  storable {a b} w s := by
    rw [hstored]
    exact storedWith_cases (P := fun _ _ t => (w, s) ∈ t → w.isFinite = true ∧ w ≠ 0) hxy
      (hforth w s) (hback w s) (fun _ _ => hm.storable) a b
  single {a} b ha := by
    rw [hstored]
    exact storedWith_cases (P := fun a _ t => m.InOrder a → t.card ≤ 1) hxy hsingle hsingle'
      (fun _ _ ha => hm.single ha) a b ((inOrder_congr hwithout a).mp ha)
  oneSided {a b} w := by
    rw [hstored]
    by_cases h : a = x ∧ b = y
    · obtain ⟨rfl, rfl⟩ := h
      rw [storedWith_forth, storedWith_back hxy]
      exact honce w
    · by_cases h' : a = y ∧ b = x
      · obtain ⟨rfl, rfl⟩ := h'
        rw [storedWith_forth, storedWith_back hxy]
        exact honce' w
      · rw [storedWith_of_ne h h', storedWith_of_ne (fun hba => h' hba.symm) fun hba => h hba.symm]
        exact hm.oneSided
  inOrder {a} ha := by
    rw [isActive_congr hwithout] at ha
    exact (inOrder_congr hwithout a).mpr (hm.inOrder ha)

/-- Two lines may store less for each other. -/
theorem Tidy.storedWith_of_le (hm : m.Tidy) (hwithout : m'.without .entries = m.without .entries)
    (hstored : m'.grid.stored = m.storedWith x y forth back) (hxy : x ≠ y)
    (hforth : forth ≤ m.grid.stored x y) (hback : back ≤ m.grid.stored y x) : m'.Tidy := by
  refine hm.storedWith hwithout hstored hxy (fun h => hm.has (x := y) fun hzero => h ?_)
    (fun h => hm.has (x := x) fun hzero => h ?_)
    (fun w s hw => hm.storable (Multiset.mem_of_le hforth hw))
    (fun w s hw => hm.storable (Multiset.mem_of_le hback hw))
    (fun hx => Nat.le_trans (Multiset.card_le_card hforth) (hm.single hx))
    (fun hy => Nat.le_trans (Multiset.card_le_card hback) (hm.single hy)) (fun w hw => ?_)
    fun w hw => ?_
  · exact Multiset.le_zero.mp (hzero ▸ hback)
  · exact Multiset.le_zero.mp (hzero ▸ hforth)
  · exact Multiset.le_zero.mp (hm.oneSided (Multiset.mem_of_le hforth hw) ▸ hback)
  · exact Multiset.le_zero.mp (hm.oneSided (Multiset.mem_of_le hback hw) ▸ hforth)

/-- Two lines store other things for each other, and nothing else changed but the places of
entries. -/
structure Updated (m m' : ConstraintMatrix) (x y : Line)
    (forth back : Multiset (Extended × Bool)) : Prop where
  sound : m'.Sound
  without : m'.without .entries = m.without .entries
  stored : m'.grid.stored = m.storedWith x y forth back

theorem Updated.trans {m'' : ConstraintMatrix} {forth' back' : Multiset (Extended × Bool)}
    (h : Updated m m' x y forth back) (h' : Updated m' m'' x y forth' back') :
    Updated m m'' x y forth' back' where
  sound := h'.sound
  without := h'.without.trans h.without
  stored := by
    rw [h'.stored]
    funext a b
    rw [storedWith, storedWith, h.stored]
    by_cases hforth : a = x ∧ b = y
    · rw [if_pos hforth, if_pos hforth]
    · by_cases hback : a = y ∧ b = x
      · rw [if_neg hforth, if_neg hforth, if_pos hback, if_pos hback]
      · rw [if_neg hforth, if_neg hforth, if_neg hback, if_neg hback, storedWith_of_ne hforth hback]

theorem Updated.symm (h : Updated m m' x y forth back) (hxy : x ≠ y) :
    Updated m m' y x back forth :=
  ⟨h.sound, h.without, h.stored.trans (storedWith_symm hxy).symm⟩

end StoredWith

/-! ## Rearranging -/

/-- The same is stored in two matrices, and nothing but the places of entries differs. -/
structure SameContent (m m' : ConstraintMatrix) : Prop where
  without : m'.without .entries = m.without .entries
  stored : m'.grid.stored = m.grid.stored

theorem SameContent.refl (m : ConstraintMatrix) : m.SameContent m := ⟨rfl, rfl⟩

theorem SameContent.trans {m'' : ConstraintMatrix} (h : m.SameContent m')
    (h' : m'.SameContent m'') : m.SameContent m'' :=
  ⟨h'.without.trans h.without, h'.stored.trans h.stored⟩

theorem Rearranged.sameContent (h : m.Rearranged m' x f) : m.SameContent m' :=
  ⟨h.without, h.grid.stored_eq⟩

/-- Sorting a part of a line keeps a matrix sound. -/
theorem ends_sort_sound (hm : m.Sound) (hx : m.Has x) (part : Part)
    {E : LpError → ConstraintMatrix → Prop} :
    Ends (rearrange x (·.sort part)) m (fun _ m' => m'.Sound ∧ m.SameContent m') E := by
  refine (ends_sort hm.wired hx part).mono_ok ?_
  rintro _ m' ⟨f, hf, hn, hparts⟩
  refine ⟨⟨hf.grid.wired hm.wired hn hparts, hf.counted hm.counted, ?_⟩, hf.sameContent⟩
  exact hm.tidy.congr hf.without hf.grid.stored_eq

end ConstraintMatrix

end CertifiedLp
