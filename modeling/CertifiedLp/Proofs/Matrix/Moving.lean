import Mathlib
import CertifiedLp.Proofs.Matrix.Places

/-!
# Moving lines

Operations that create lines, move them in and out of the active linear program, and use and free
rows. None of them changes a coefficient of a row that still exists.
-/

namespace CertifiedLp

namespace ConstraintMatrix

variable {m m' t : ConstraintMatrix} {c : ColumnRef} {r : RowRef} {row : Row} {p q : Places}
variable {column : Column} {position : Option Nat} {E : LpError → ConstraintMatrix → Prop}

/-! ## Keeping coefficients -/

theorem amount_of_shape (h : m'.shape = m.shape) : m'.amount = m.amount := by
  funext c r
  rw [amount_eq_total, amount_eq_total, grid_eq_of_shape h]

theorem linked_of_shape (h : m'.shape = m.shape) : m'.linked = m.linked := by
  funext c r
  rw [linked, linked, grid_eq_of_shape h]

/-- Rows may have been freed, and the coefficients of all others are the same. Where another part of a
coefficient is known to both of its lines, it is all of it. -/
structure Sheds (m m' : ConstraintMatrix) : Prop where
  live : ∀ {r}, (m'.row? r).isSome = true → (m.row? r).isSome = true
  amount : ∀ {c r}, (m'.row? r).isSome = true → m'.amount c r = m.amount c r
  linked : ∀ {c r}, (m'.row? r).isSome = true →
    m'.linked c r = m.linked c r ∨ m'.linked c r = m'.amount c r

/-- Rows may have been freed. The coefficients of all others are the same, and as much of them is
known to both of their lines. -/
structure Undisturbed (m m' : ConstraintMatrix) : Prop where
  live : ∀ {r}, (m'.row? r).isSome = true → (m.row? r).isSome = true
  amount : ∀ {c r}, (m'.row? r).isSome = true → m'.amount c r = m.amount c r
  linked : ∀ {c r}, (m'.row? r).isSome = true → m'.linked c r = m.linked c r

theorem Undisturbed.sheds (h : m.Undisturbed m') : m.Sheds m' :=
  ⟨h.live, h.amount, fun hr => .inl (h.linked hr)⟩

theorem Revised.undisturbed (h : Revised m m' m.amount) : m.Undisturbed m' :=
  ⟨fun {r} hr => (h.stays.isSome_row? r) ▸ hr, fun _ => by rw [h.amount], fun _ => h.linked rfl⟩

instance : IsPreorder ConstraintMatrix Undisturbed where
  refl _ := ⟨id, fun _ => rfl, fun _ => rfl⟩
  trans _ _ _ h h' := ⟨fun hr => h.live (h'.live hr),
    fun hr => (h'.amount hr).trans (h.amount (h'.live hr)),
    fun hr => (h'.linked hr).trans (h.linked (h'.live hr))⟩

instance : IsPreorder ConstraintMatrix Sheds where
  refl _ := ⟨id, fun _ => rfl, fun _ => .inl rfl⟩
  trans _ _ _ h h' := ⟨fun hr => h.live (h'.live hr),
    fun hr => (h'.amount hr).trans (h.amount (h'.live hr)), fun hr => by
      rcases h'.linked hr with hsame | hall
      · rw [hsame, h'.amount hr]
        exact h.linked (h'.live hr)
      · exact .inr hall⟩

/-- What a column stores for a row is known to both lines completely, or not at all. -/
theorem Tidy.linked_eq (hm : m.Tidy) (c : ColumnRef) (r : RowRef) :
    m.linked c r = 0 ∨ m.linked c r = m.amount c r := by
  rw [linked]
  rcases Multiset.empty_or_exists_mem (m.grid.stored (.column c) (.row r)) with
    hnone | ⟨⟨v, b⟩, hv⟩
  · exact .inl (by rw [hnone]; rfl)
  have hstored := hm.stored_eq_singleton (x := .column c) trivial hv
  rw [hstored, linkedTotal_singleton]
  cases b with
  | false => exact .inl rfl
  | true =>
    refine .inr ?_
    have hback : (m.grid.stored (.row r) (.column c)).filter (·.2 = false) = 0 := by
      refine Multiset.filter_eq_nil.mpr fun w hw hfalse => ?_
      obtain ⟨w, b⟩ := w
      obtain rfl : b = false := hfalse
      rw [hm.oneSided hw] at hv
      exact Multiset.notMem_zero _ hv
    rw [amount_eq_total, total, hstored, hback]
    simp

/-- Linking a line sheds nothing. -/
theorem Links.sheds {x : Line} (h : m.Links x m') (hm : m.Sound) : m.Sheds m' where
  live {r} hr := (has_congr h.without (.row r)).mp hr
  amount _ := by rw [h.amount]
  linked {c r} _ := by
    by_cases hlinked : ∃ v, (v, true) ∈ m.grid.stored (.column c) (.row r)
    · obtain ⟨v, hv⟩ := hlinked
      left
      rw [ConstraintMatrix.linked, ConstraintMatrix.linked,
        hm.tidy.stored_eq_singleton (x := .column c) trivial hv,
        h.sound.tidy.stored_eq_singleton (x := .column c) trivial (h.stillLinked hv)]
    · have hnone : m.linked c r = 0 := by
        rw [ConstraintMatrix.linked, linkedTotal, Multiset.filter_eq_nil.mpr, Multiset.map_zero,
          Multiset.sum_zero]
        rintro ⟨v, b⟩ hv rfl
        exact hlinked ⟨v, hv⟩
      rw [hnone]
      exact h.sound.tidy.linked_eq c r

instance : IsPreorder ConstraintMatrix Stays where
  refl := Stays.refl
  trans _ _ _ := Stays.trans

instance : IsPreorder ConstraintMatrix Remarked where
  refl m := ⟨rfl, .refl m⟩
  trans _ _ _ := Remarked.trans

/-- A row that was freed has no coefficients. -/
theorem Sound.amount_eq_zero (hm : m.Sound) (hr : m.row? r = none) (c : ColumnRef) :
    m.amount c r = 0 := by
  have hforth : m.grid.stored (.column c) (.row r) = 0 := by
    by_contra hne
    have hhas := hm.tidy.has hne
    rw [Has, hr] at hhas
    cases hhas
  refine amount_of_stored hforth ?_
  rw [Grid.stored, grid]
  simp [hr]


/-! ## Relocation -/

/-- The lines are at given places now, and rows may have been freed. -/
structure Relocated (m m' : ConstraintMatrix) (p : Places) : Prop where
  sound : m'.Sound
  places : m'.places = p
  undisturbed : m.Undisturbed m'
  has : ∀ {c}, m.Has (.column c) → m'.Has (.column c)
  firstChangedColumn : m'.firstChangedColumn = m.firstChangedColumn
  firstChangedRow : m'.firstChangedRow = m.firstChangedRow

theorem Sound.relocated (hm : m.Sound) : Relocated m m m.places :=
  ⟨hm, rfl, refl m, id, rfl, rfl⟩

theorem Relocated.trans (h : Relocated m t p) (h' : Relocated t m' q) : Relocated m m' q where
  sound := h'.sound
  places := h'.places
  undisturbed := IsTrans.trans _ _ _ h.undisturbed h'.undisturbed
  has hc := h'.has (h.has hc)
  firstChangedColumn := h'.firstChangedColumn.trans h.firstChangedColumn
  firstChangedRow := h'.firstChangedRow.trans h.firstChangedRow

theorem amount_of_grid_stored (h : m'.grid.stored = m.grid.stored) : m'.amount = m.amount := by
  funext c r
  rw [amount_eq_total, amount_eq_total, h]

theorem linked_of_grid_stored (h : m'.grid.stored = m.grid.stored) : m'.linked = m.linked := by
  funext c r
  rw [linked, linked, h]

/-- A line that enters or leaves the active linear program. -/
theorem relocated_activePosition {x : Line} (hx : m.Has x) (hsound : m'.Sound)
    (h : (m.withActivePosition x position).SameContent m') :
    Relocated m m' (m.withActivePosition x position).places where
  sound := hsound
  places := (Stays.of_entries h.without).places
  undisturbed := by
    have hstored := h.stored.trans (stored_withActivePosition hx position)
    exact ⟨fun {r} hr => (has_withActivePosition position (.row r)).mp
      ((has_congr h.without (.row r)).mp hr), fun _ => by rw [amount_of_grid_stored hstored],
      fun _ => by rw [linked_of_grid_stored hstored]⟩
  has {c} hc := (has_congr h.without (.column c)).mpr ((has_withActivePosition position _).mpr hc)
  firstChangedColumn := by
    have hfirst := congrArg (·.firstChangedColumn) h.without
    cases x <;> exact hfirst
  firstChangedRow := by
    have hfirst := congrArg (·.firstChangedRow) h.without
    cases x <;> exact hfirst

theorem ends_moveColumn (hm : m.Sound) (hc : m.Has (.column c)) (position : Option Nat) :
    Ends (setColumnActivePosition c position) m (fun _ m' =>
      Relocated m m' (m.places.moveColumn c position)) E := by
  refine (ends_setColumnActivePosition hm hc position).mono_ok fun _ m' hm' => ?_
  rw [← places_withActivePosition_column hc]
  exact relocated_activePosition hc hm'.1 hm'.2

theorem ends_moveRow (hm : m.Sound) (hr : m.Has (.row r))
    (horder : position.isSome = true → m.InOrder (.row r)) :
    Ends (setRowActivePosition r position) m (fun _ m' =>
      Relocated m m' (m.places.moveRow r position)) E := by
  refine (ends_setRowActivePosition hm hr horder).mono_ok fun _ m' hm' => ?_
  rw [← places_withActivePosition_row]
  exact relocated_activePosition hr hm'.1 hm'.2

/-- A change that concerns places only. -/
theorem Sound.relocated_of_shape (hm : m.Sound) (hshape : m'.shape = m.shape)
    (hplaces : m'.places = p) (hcolumn : m'.firstChangedColumn = m.firstChangedColumn)
    (hrow : m'.firstChangedRow = m.firstChangedRow) : Relocated m m' p where
  sound := hm.congr hshape
  places := hplaces
  undisturbed := ⟨fun {r} => (has_of_shape hshape (.row r)).mp,
    fun _ => by rw [amount_of_shape hshape], fun _ => by rw [linked_of_shape hshape]⟩
  has {c} := (has_of_shape hshape (.column c)).mpr
  firstChangedColumn := hcolumn
  firstChangedRow := hrow

theorem Sound.relocated_modifyRow (hm : m.Sound) (r : RowRef) {f : Row → Row}
    {g : RowPlace → RowPlace}
    (hshape : ∀ row, Forgetting.details.row (f row) = Forgetting.details.row row)
    (hplace : ∀ row, (f row).place = g row.place) :
    Relocated m (m.modifyRow r f) (m.places.modifyRow r g) :=
  hm.relocated_of_shape (shape_modifyRow m r hshape) (places_modifyRow m r hplace) rfl rfl

theorem Freed.relocated (h : Freed m m' r) : Relocated m m' (m.places.dropRow r) where
  sound := h.sound
  places := by
    rw [(Stays.of_entries h.without).places, places_withoutRow]
  undisturbed := by
    have hlive {s : RowRef} (hs : (m'.row? s).isSome = true) :
        s ≠ r ∧ (m.row? s).isSome = true := by
      rw [(Stays.of_entries h.without).isSome_row? s, row?_withoutRow] at hs
      split at hs
      · cases hs
      · next hne => exact ⟨Ne.symm hne, hs⟩
    exact ⟨fun hs => (hlive hs).2, fun {c s} hs => by rw [h.amount, if_neg (hlive hs).1],
      fun {c s} hs => h.linked (hlive hs).1 c⟩
  has {c} hc := (has_congr h.without (.column c)).mpr hc
  firstChangedColumn := congrArg (·.firstChangedColumn) h.without
  firstChangedRow := congrArg (·.firstChangedRow) h.without

/-! ## Creation -/

theorem column_pushColumn (m : ConstraintMatrix) (column : Column) (d : ColumnRef) :
    (m.pushColumn column).1.column d =
      if d.index = m.columns.size then column else m.column d := by
  rw [pushColumn, ConstraintMatrix.column, ConstraintMatrix.column, Array.getD_eq_getD_getElem?,
    Array.getElem?_push, Array.getD_eq_getD_getElem?]
  split <;> rfl

theorem row?_pushRow (m : ConstraintMatrix) (row : Row) (s : RowRef) :
    (m.pushRow row).1.row? s = if s.index = m.rows.size then some row else m.row? s := by
  rw [pushRow, row?, row?, Array.getElem?_push]
  split <;> rfl

/-- What does not exist looks like new. -/
theorem column_of_size_le {d : ColumnRef} (h : m.columns.size ≤ d.index) :
    m.column d = default := by
  rw [ConstraintMatrix.column, Array.getD_eq_getD_getElem?, Array.getElem?_eq_none h]
  rfl

/-- A new column is nowhere and has no coefficients. -/
theorem Sound.pushColumn (hm : m.Sound) (origin : VariableRef) (integral : Bool)
    (spec : ColumnSpec) :
    Relocated m (m.pushColumn (.create origin integral spec)).1 m.places := by
  have hcolumn {β : Type} (g : Column → β) (hg : g (.create origin integral spec) = g default)
      (d : ColumnRef) : g ((m.pushColumn (.create origin integral spec)).1.column d) =
        g (m.column d) := by
    rw [column_pushColumn]
    split
    · next heq => rw [hg, column_of_size_le (Nat.le_of_eq heq.symm)]
    · rfl
  have hgrid : (m.pushColumn (.create origin integral spec)).1.grid = m.grid := by
    rw [grid, grid, Grid.mk.injEq]
    refine ⟨?_, ?_, ?_⟩ <;> funext y <;> cases y with
    | column d => first
      | exact hcolumn (fun column => column.entries.entries.map (Entry.map Line.row)) rfl d
      | exact hcolumn (fun column => column.entries.nrActive) rfl d
      | exact hcolumn Column.isActive rfl d
    | row s => rfl
  refine ⟨⟨hgrid ▸ hm.wired, fun x => ?_, hm.tidy.of_grid hgrid (fun x hx => ?_) (fun _ => id)
    fun _ => hm.tidy.inOrder⟩, ?_, ⟨id, fun _ => ?_, fun _ => ?_⟩, fun hc => ?_, rfl, rfl⟩
  · cases x with
    | column d =>
      rw [CountedAt, hcolumn Column.entries rfl d]
      exact hm.counted (.column d)
    | row s => exact hm.counted (.row s)
  · cases x with
    | column d => exact Nat.lt_of_lt_of_le hx (by simp [ConstraintMatrix.pushColumn])
    | row s => exact hx
  · rw [places, places, Places.mk.injEq]
    exact ⟨funext (hcolumn Column.activePosition rfl), funext (hcolumn Column.solverPosition rfl),
      rfl, rfl, rfl, rfl⟩
  · exact congrFun (congrFun (amount_of_grid_stored (congrArg Grid.stored hgrid)) _) _
  · exact congrFun (congrFun (linked_of_grid_stored (congrArg Grid.stored hgrid)) _) _
  · exact Nat.lt_of_lt_of_le hc (by simp [ConstraintMatrix.pushColumn])

/-- A new row is nowhere, has no coefficients, and has one use. -/
theorem Sound.pushRow (hm : m.Sound) (name : String) (spec : RowSpec) :
    (m.pushRow (.create name spec)).1.Sound ∧
      (m.pushRow (.create name spec)).1.places = m.places.pushRow ∧
        (m.pushRow (.create name spec)).1.amount = m.amount ∧
          (m.pushRow (.create name spec)).1.linked = m.linked := by
  have hnew {s : RowRef} (hs : s.index = m.rows.size) : m.row? s = none :=
    row?_of_size_le (Nat.le_of_eq hs.symm)
  have hgrid : (m.pushRow (.create name spec)).1.grid = m.grid := by
    rw [grid, grid, Grid.mk.injEq]
    refine ⟨?_, ?_, ?_⟩ <;> funext y <;> cases y with
    | column d => rfl
    | row s =>
      simp only [row?_pushRow]
      split
      · next hs =>
        rw [hnew hs]
        simp [Row.create, Incidence.empty, Row.isActive]
      · rfl
  have horder (x : Line) : (m.pushRow (.create name spec)).1.InOrder x ↔ m.InOrder x := by
    cases x with
    | column c => exact Iff.rfl
    | row s =>
      rw [InOrder, InOrder, row?_pushRow]
      split
      · next hs =>
        rw [hnew hs]
        simp [Row.create]
      · exact Iff.rfl
  refine ⟨⟨hgrid ▸ hm.wired, fun x => ?_, hm.tidy.of_grid hgrid (fun x hx => ?_)
    (fun x => (horder x).mp) fun x hx => (horder x).mpr (hm.tidy.inOrder hx)⟩, ?_,
    amount_of_grid_stored (congrArg Grid.stored hgrid),
    linked_of_grid_stored (congrArg Grid.stored hgrid)⟩
  · cases x with
    | column d => exact hm.counted (.column d)
    | row s =>
      intro row hrow
      rw [row?_pushRow] at hrow
      split at hrow
      · cases hrow
        exact Incidence.counted_empty
      · exact hm.counted (.row s) row hrow
  · cases x with
    | column d => exact hx
    | row s =>
      rw [Has, row?_pushRow]
      split
      · rfl
      · exact hx
  · rw [places, places, Places.pushRow, Places.mk.injEq]
    refine ⟨rfl, rfl, funext fun s => ?_, by simp [ConstraintMatrix.pushRow], rfl, rfl⟩
    simp only [row?_pushRow]
    split <;> rfl

/-! ## The empty matrix -/

theorem column_empty (c : ColumnRef) : empty.column c = default :=
  column_of_size_le (Nat.zero_le _)

theorem row?_empty (r : RowRef) : empty.row? r = none := row?_of_size_le (Nat.zero_le _)

theorem cells_empty (x : Line) : empty.grid.cells x = #[] := by
  cases x with
  | column c =>
    rw [cells_column, column_empty]
    exact Array.map_empty
  | row r =>
    simp only [grid, row?_empty]
    rfl

theorem nrActive_empty (x : Line) : empty.grid.nrActive x = 0 := by
  cases x with
  | column c => exact congrArg (fun column => column.entries.nrActive) (column_empty c)
  | row r =>
    simp only [grid, row?_empty]
    rfl

theorem isActive_empty (x : Line) : empty.grid.isActive x = false := by
  cases x with
  | column c => exact congrArg Column.isActive (column_empty c)
  | row r => exact congrArg (Option.any (·.isActive)) (row?_empty r)

theorem cell_empty (x : Line) (i : Nat) : empty.grid.cell x i = none := by
  rw [Grid.cell, cells_empty]
  rfl

theorem stored_empty (x y : Line) : empty.grid.stored x y = 0 := by
  rw [Grid.stored, cells_empty]
  rfl

theorem wired_empty : empty.grid.Wired where
  mirrored := {
    back := fun {x i _ _ _} h => nomatch (cell_empty x i).symm.trans h
    ne := fun {x i _ _ _} h => nomatch (cell_empty x i).symm.trans h }
  parted x i _ he := nomatch (cell_empty x i).symm.trans he
  bounded x := by
    rw [nrActive_empty]
    exact Nat.zero_le _

theorem tidy_empty : empty.Tidy where
  has {x y} h := (h (stored_empty x y)).elim
  storable {x y v b} h := by
    rw [stored_empty] at h
    exact (Multiset.notMem_zero _ h).elim
  single {x y} _ := by
    rw [stored_empty]
    exact Nat.zero_le _
  oneSided {x y v} _ := stored_empty y x
  inOrder {x} h := nomatch (isActive_empty x).symm.trans h

theorem sound_empty : empty.Sound where
  wired := wired_empty
  counted x := by
    cases x with
    | column c =>
      rw [CountedAt, column_empty]
      exact Incidence.counted_empty
    | row r => exact fun row hrow => by cases (row?_empty r).symm.trans hrow
  tidy := tidy_empty

theorem amount_empty (c : ColumnRef) (r : RowRef) : empty.amount c r = 0 :=
  amount_of_stored (stored_empty _ _) (stored_empty _ _)

theorem row_places_empty (r : RowRef) : empty.places.row r = none :=
  congrArg (Option.map Row.place) (row?_empty r)

end ConstraintMatrix

/-- An empty list has no positions. -/
theorem Indexes.empty {κ : Type} {among : κ → Prop} {position : κ → Option Nat}
    (h : ∀ k, among k → position k = none) : Indexes among position #[] := fun k hk i => by
  rw [h k hk]
  simp

theorem placed_empty : Placed ConstraintMatrix.empty.places #[] #[] where
  columns := .empty fun c _ =>
    congrArg Column.activePosition (ConstraintMatrix.column_empty c)
  rows := .empty fun r _ => by
    rw [Places.activeRow, ConstraintMatrix.row_places_empty]
    rfl
  solverColumns := .empty fun c _ =>
    congrArg Column.solverPosition (ConstraintMatrix.column_empty c)
  solverRows := .empty fun r _ => by
    rw [Places.solverRow, ConstraintMatrix.row_places_empty]
    rfl
  known r hr := (Array.not_mem_empty r hr).elim
  used {r _} h := nomatch (ConstraintMatrix.row_places_empty r).symm.trans h

end CertifiedLp
