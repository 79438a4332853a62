import Mathlib
import CertifiedLp.Proofs.Forgetting
import CertifiedLp.Proofs.Incidence.Counts
import CertifiedLp.Proofs.Matrix.Grid
import CertifiedLp.Proofs.Run

/-!
# The grid of a matrix

The columns and rows of a matrix as lines of a grid, and the two steps that all operations on
coefficients consist of: the entries of one line are replaced, and the moves are told to the other
lines.
-/

namespace CertifiedLp

theorem Line.column_injective : Function.Injective Line.column := fun _ _ h => by cases h; rfl

theorem Line.row_injective : Function.Injective Line.row := fun _ _ h => by cases h; rfl

/-- The values for a partner do not depend on what the partners are called. -/
theorem Entry.filter_map_partner {κ : Type} [DecidableEq κ] {name : κ → Line}
    (hname : Function.Injective name) (es : Array (Entry κ)) (partner : κ) :
    ((es.map (Entry.map name)).toList.filter (·.partner = name partner)).map
        (fun e => (e.value, e.link.isSome)) =
      (es.toList.filter (·.partner = partner)).map fun e => (e.value, e.link.isSome) := by
  have htest : (fun e : Entry Line => decide (e.partner = name partner)) ∘ Entry.map name =
      fun e : Entry κ => decide (e.partner = partner) := by
    funext e
    simp [Entry.map, hname.eq_iff]
  rw [Array.toList_map, List.filter_map, List.map_map, htest]
  rfl

/-! ## Learning moves -/

section Learning

variable {κ μ : Type} [DecidableEq μ] {l : Incidence κ} {line : μ} {moves : List (Move μ)}

/-- A line with its links corrected by the moves that concern it. -/
def Incidence.learn (l : Incidence κ) (line : μ) (moves : List (Move μ)) : Incidence κ :=
  moves.foldl (fun l move =>
    if move.partner = line then l.relink move.counterpart move.position else l) l

@[simp] theorem Incidence.learn_nil (l : Incidence κ) (line : μ) : l.learn line [] = l := rfl

theorem Incidence.learn_cons (l : Incidence κ) (line : μ) (move : Move μ) (moves : List (Move μ)) :
    l.learn line (move :: moves) =
      (if move.partner = line then l.relink move.counterpart move.position else l).learn line moves :=
  rfl

@[simp] theorem Incidence.nrActive_learn (l : Incidence κ) (line : μ) (moves : List (Move μ)) :
    (l.learn line moves).nrActive = l.nrActive := by
  induction moves generalizing l with
  | nil => rfl
  | cons move moves ih =>
    rw [learn_cons, ih]
    split <;> rfl

theorem Incidence.getElem?_learn (l : Incidence κ) (line : μ) (moves : List (Move μ)) (k : Nat) :
    (l.learn line moves).entries[k]? =
      (l.entries[k]?).map fun e => { e with link := Move.told moves line k e.link } := by
  induction moves generalizing l with
  | nil => simp
  | cons move moves ih =>
    rw [learn_cons, ih]
    simp only [Move.told_cons]
    by_cases hline : move.partner = line
    · rw [if_pos hline, relink, Array.getElem?_modify]
      by_cases hk : move.counterpart = k
      · rw [if_pos hk, Option.map_map]
        simp [hline, hk, Function.comp_def]
      · simp [hk]
    · simp [hline]

theorem Incidence.counted_learn [Reference κ] (h : l.Counted)
    (hlinked : ∀ move ∈ moves, move.partner = line →
      ∃ e, l.entries[move.counterpart]? = some e ∧ e.link.isSome = true) :
    (l.learn line moves).Counted := by
  induction moves generalizing l with
  | nil => exact h
  | cons move moves ih =>
    rw [learn_cons]
    split
    · next hline =>
      obtain ⟨e, he, hlink⟩ := hlinked move (by simp) hline
      refine ih (counted_relink h he hlink _) fun other hother hpartner => ?_
      obtain ⟨e', he', hlink'⟩ := hlinked other (by simp [hother]) hpartner
      rw [relink, Array.getElem?_modify]
      by_cases hk : move.counterpart = other.counterpart
      · rw [if_pos hk, he']
        exact ⟨_, rfl, rfl⟩
      · rw [if_neg hk]
        exact ⟨e', he', hlink'⟩
    · exact ih h fun other hother => hlinked other (by simp [hother])

end Learning

namespace ConstraintMatrix

variable {m m' : ConstraintMatrix} {c d : ColumnRef} {r s : RowRef} {row : Row} {x y : Line}
variable {i k : Nat} {e : Entry Line}

/-! ## Lines -/

/-- The entries of all columns and rows. -/
def grid (m : ConstraintMatrix) : Grid where
  cells
    | .column c => (m.column c).entries.entries.map (Entry.map .row)
    | .row r => ((m.row? r).map fun row => row.entries.entries.map (Entry.map .column)).getD #[]
  nrActive
    | .column c => (m.column c).entries.nrActive
    | .row r => ((m.row? r).map fun row => row.entries.nrActive).getD 0
  isActive
    | .column c => (m.column c).isActive
    | .row r => (m.row? r).any (·.isActive)

/-- A column or a row exists. -/
def Has (m : ConstraintMatrix) : Line → Prop
  | .column c => c.index < m.columns.size
  | .row r => (m.row? r).isSome = true

theorem mem_columnRefs : c ∈ m.columnRefs ↔ m.Has (.column c) := by
  rw [columnRefs, List.mem_map, Has]
  constructor
  · rintro ⟨i, hi, rfl⟩
    exact List.mem_range.mp hi
  · intro hc
    exact ⟨c.index, List.mem_range.mpr hc, rfl⟩

theorem cells_column (m : ConstraintMatrix) (c : ColumnRef) :
    m.grid.cells (.column c) = (m.column c).entries.entries.map (Entry.map .row) := rfl

theorem cells_row (h : m.row? r = some row) :
    m.grid.cells (.row r) = row.entries.entries.map (Entry.map .column) := by
  simp [grid, h]

theorem stored_column (m : ConstraintMatrix) (c : ColumnRef) (r : RowRef) :
    m.grid.stored (.column c) (.row r) =
      (((m.column c).entries.entries.toList.filter (·.partner = r)).map
        fun e => (e.value, e.link.isSome) : List _) := by
  rw [Grid.stored, cells_column, Entry.filter_map_partner Line.row_injective]

theorem stored_row (h : m.row? r = some row) (c : ColumnRef) :
    m.grid.stored (.row r) (.column c) =
      ((row.entries.entries.toList.filter (·.partner = c)).map
        fun e => (e.value, e.link.isSome) : List _) := by
  rw [Grid.stored, cells_row h, Entry.filter_map_partner Line.column_injective]

theorem cell_column (m : ConstraintMatrix) (c : ColumnRef) (i : Nat) :
    m.grid.cell (.column c) i = ((m.column c).entries.entries[i]?).map (Entry.map .row) := by
  rw [Grid.cell, cells_column, Array.getElem?_map]

theorem cell_row (h : m.row? r = some row) (i : Nat) :
    m.grid.cell (.row r) i = (row.entries.entries[i]?).map (Entry.map .column) := by
  rw [Grid.cell, cells_row h, Array.getElem?_map]

theorem cell_of_column {e : Entry RowRef} (he : (m.column c).entries.entries[i]? = some e) :
    m.grid.cell (.column c) i = some (e.map .row) := by
  rw [cell_column, he, Option.map_some]

theorem cell_of_row {e : Entry ColumnRef} (h : m.row? r = some row)
    (he : row.entries.entries[i]? = some e) :
    m.grid.cell (.row r) i = some (e.map .column) := by
  rw [cell_row h, he, Option.map_some]

theorem nrActive_row (h : m.row? r = some row) :
    m.grid.nrActive (.row r) = row.entries.nrActive := by
  simp [grid, h]

theorem isActive_row (h : m.row? r = some row) : m.grid.isActive (.row r) = row.isActive := by
  simp [grid, h]

/-- Only lines that exist have entries. -/
theorem has_of_cell (h : m.grid.cell x i = some e) : m.Has x := by
  cases x with
  | column c =>
    rw [cell_column] at h
    refine lt_size_of_column_ne fun hnew => ?_
    rw [hnew] at h
    simp [default, Column.create, Incidence.empty] at h
  | row r =>
    cases hrow : m.row? r with
    | none => simp [Grid.cell, grid, hrow] at h
    | some row => simp [Has, hrow]

/-- The partners of a column are rows. -/
theorem partner_of_cell_column (h : m.grid.cell (.column c) i = some e) :
    ∃ e' : Entry RowRef, (m.column c).entries.entries[i]? = some e' ∧ e = e'.map .row := by
  rw [cell_column] at h
  obtain ⟨e', he', rfl⟩ := Option.map_eq_some_iff.mp h
  exact ⟨e', he', rfl⟩

theorem partner_of_cell_row (h : m.grid.cell (.row r) i = some e) :
    ∃ (row : Row) (e' : Entry ColumnRef), m.row? r = some row ∧
      row.entries.entries[i]? = some e' ∧ e = e'.map .column := by
  obtain ⟨row, hrow⟩ := Option.isSome_iff_exists.mp (has_of_cell h)
  rw [cell_row hrow] at h
  obtain ⟨e', he', rfl⟩ := Option.map_eq_some_iff.mp h
  exact ⟨row, e', hrow, he', rfl⟩

/-! ## Telling moves -/

/-- Tell a row that an entry of a column moved. -/
def relinkRow (m : ConstraintMatrix) (move : Move RowRef) : ConstraintMatrix :=
  m.modifyRow move.partner fun row =>
    { row with entries := row.entries.relink move.counterpart move.position }

/-- Tell a column that an entry of a row moved. -/
def relinkColumn (m : ConstraintMatrix) (move : Move ColumnRef) : ConstraintMatrix :=
  m.modifyColumn move.partner fun column =>
    { column with entries := column.entries.relink move.counterpart move.position }

theorem row?_foldl_relinkRow (m : ConstraintMatrix) (moves : List (Move RowRef)) (r : RowRef) :
    (moves.foldl relinkRow m).row? r =
      (m.row? r).map fun row => { row with entries := row.entries.learn r moves } := by
  induction moves generalizing m with
  | nil => simp
  | cons move moves ih =>
    rw [List.foldl_cons, ih, relinkRow, row?_modifyRow]
    by_cases hr : move.partner = r
    · rw [if_pos hr, Option.map_map]
      simp [Incidence.learn_cons, hr, Function.comp_def]
    · rw [if_neg hr]
      simp [Incidence.learn_cons, hr]

theorem column_foldl_relinkRow (m : ConstraintMatrix) (moves : List (Move RowRef)) (c : ColumnRef) :
    (moves.foldl relinkRow m).column c = m.column c := by
  induction moves generalizing m with
  | nil => rfl
  | cons move moves ih => rw [List.foldl_cons, ih, relinkRow, column_modifyRow]

theorem column_foldl_relinkColumn (m : ConstraintMatrix) (moves : List (Move ColumnRef))
    (c : ColumnRef) : (moves.foldl relinkColumn m).column c =
      { m.column c with entries := (m.column c).entries.learn c moves } := by
  induction moves generalizing m with
  | nil => rfl
  | cons move moves ih =>
    rw [List.foldl_cons, ih, relinkColumn, Incidence.learn_cons]
    by_cases hc : move.partner = c
    · subst hc
      rw [if_pos rfl]
      by_cases hlt : move.partner.index < m.columns.size
      · rw [column_modifyColumn_self hlt]
      · -- A column that does not exist has no entries to relink.
        have hnew (f : Column → Column) : (m.modifyColumn move.partner f).column move.partner =
            m.column move.partner := by
          rw [column, column, modifyColumn, Array.getD_eq_getD_getElem?,
            Array.getD_eq_getD_getElem?, Array.getElem?_eq_none (by simpa using hlt),
            Array.getElem?_eq_none (by omega)]
        have hempty : (m.column move.partner).entries = .empty := by
          rw [column, Array.getD_eq_getD_getElem?, Array.getElem?_eq_none (by omega)]
          rfl
        rw [hnew, hempty]
        rfl
    · rw [if_neg hc, column_modifyColumn_of_ne hc]

theorem row?_foldl_relinkColumn (m : ConstraintMatrix) (moves : List (Move ColumnRef))
    (r : RowRef) : (moves.foldl relinkColumn m).row? r = m.row? r := by
  induction moves generalizing m with
  | nil => rfl
  | cons move moves ih => rw [List.foldl_cons, ih, relinkColumn, row?_modifyColumn]

theorem without_foldl_relinkRow (m : ConstraintMatrix) (moves : List (Move RowRef)) :
    (moves.foldl relinkRow m).without .entries = m.without .entries := by
  induction moves generalizing m with
  | nil => rfl
  | cons move moves ih =>
    rw [List.foldl_cons, ih, relinkRow]
    exact without_modifyRow _ _ fun _ => rfl

theorem without_foldl_relinkColumn (m : ConstraintMatrix) (moves : List (Move ColumnRef)) :
    (moves.foldl relinkColumn m).without .entries = m.without .entries := by
  induction moves generalizing m with
  | nil => rfl
  | cons move moves ih =>
    rw [List.foldl_cons, ih, relinkColumn]
    exact without_modifyColumn _ _ fun _ => rfl

variable {E : LpError → ConstraintMatrix → Prop} {Q : Unit → ConstraintMatrix → Prop}

theorem ends_tellRows {moves : List (Move RowRef)}
    (h : ∀ move ∈ moves, (m.row? move.partner).isSome = true) :
    Ends (tellRows moves) m Q E ↔ Q () (moves.foldl relinkRow m) := by
  induction moves generalizing m with
  | nil => exact Iff.rfl
  | cons move moves ih =>
    obtain ⟨row, hrow⟩ := Option.isSome_iff_exists.mp (h move (by simp))
    have hrest := ih (m := m.relinkRow move) fun other hother => by
      rw [relinkRow, row?_modifyRow]
      split
      · rw [Option.isSome_map]
        exact h other (by simp [hother])
      · exact h other (by simp [hother])
    simp only [tellRows, List.forIn_cons, Ends.bind_iff, ends_updateRow hrow, Ends.pure_iff,
      List.foldl_cons] at hrest ⊢
    exact hrest

theorem ends_tellColumns {moves : List (Move ColumnRef)} :
    Ends (tellColumns moves) m Q E ↔ Q () (moves.foldl relinkColumn m) := by
  induction moves generalizing m with
  | nil => exact Iff.rfl
  | cons move moves ih =>
    have hrest := ih (m := m.relinkColumn move)
    simp only [tellColumns, List.forIn_cons, Ends.bind_iff, ends_updateColumn, Ends.pure_iff,
      List.foldl_cons] at hrest ⊢
    exact hrest

/-! ## Replacing the entries of a line -/

/-- The counts of a line are right. -/
def CountedAt (m : ConstraintMatrix) : Line → Prop
  | .column c => (m.column c).entries.Counted
  | .row r => ∀ row, m.row? r = some row → row.entries.Counted

/-- The entries of a line were replaced, and the moves told to the other lines. -/
structure Replaced (m m' : ConstraintMatrix) (x : Line) (moves : List (Move Line)) : Prop where
  without : m'.without .entries = m.without .entries
  tells : m.grid.Tells m'.grid x moves
  counted : ∀ y, y ≠ x → m.CountedAt y → m'.CountedAt y

/-- A move is told to an entry that has a link. -/
def Heard (m : ConstraintMatrix) (moves : List (Move Line)) : Prop :=
  ∀ move ∈ moves, ∃ e, m.grid.cell move.partner move.counterpart = some e ∧ e.link.isSome = true

theorem ends_rearrangeColumn {F : Incidence RowRef → Incidence RowRef × List (Move RowRef)}
    (hc : m.Has (.column c)) (hmoves : m.Heard ((F (m.column c).entries).2.map (Move.map .row))) :
    Ends (rearrangeColumn c F) m
      (fun _ m' => m.Replaced m' (.column c) ((F (m.column c).entries).2.map (Move.map .row)) ∧
        (m'.column c).entries = (F (m.column c).entries).1) E := by
  simp only [rearrangeColumn, Ends.bind_iff, ends_getColumn, ends_updateColumn]
  generalize F (m.column c).entries = result at hmoves ⊢
  obtain ⟨l, moves⟩ := result
  have hheard {move : Move RowRef} (hmem : move ∈ moves) : ∃ row e,
      m.row? move.partner = some row ∧ row.entries.entries[move.counterpart]? = some e ∧
        e.link.isSome = true := by
    obtain ⟨e, he, hlink⟩ := hmoves _ (List.mem_map_of_mem hmem)
    obtain ⟨row, e, hrow, hat, rfl⟩ := partner_of_cell_row he
    exact ⟨row, e, hrow, hat, hlink⟩
  rw [ends_tellRows fun move hmem => by
    obtain ⟨row, _, hrow, -⟩ := hheard hmem
    simp [hrow]]
  set changed := m.modifyColumn c ({ · with entries := l }) with hchanged
  have hself : changed.column c = { m.column c with entries := l } := column_modifyColumn_self hc _
  have hother {d : ColumnRef} (hd : Line.column d ≠ .column c) : changed.column d = m.column d :=
    column_modifyColumn_of_ne (fun heq => hd (by rw [heq])) _
  refine ⟨⟨?_, ⟨?_, ?_, ?_⟩, ?_⟩, ?_⟩
  · rw [without_foldl_relinkRow, hchanged]
    exact without_modifyColumn _ _ fun _ => rfl
  · intro y k hy
    cases y with
    | column d =>
      have hnone (link : Option Nat) :
          Move.told (moves.map (Move.map Line.row)) (Line.column d) k link = link := by
        refine Move.told_of_forall_ne (fun move hmem hmove => ?_) link
        obtain ⟨move, -, rfl⟩ := List.mem_map.mp hmem
        cases hmove.1
      rw [cell_column, cell_column, column_foldl_relinkRow, hother hy]
      simp only [hnone, Option.map_id']
    | row r =>
      cases hrow : m.row? r with
      | none => simp [Grid.cell, grid, row?_foldl_relinkRow, hchanged, hrow]
      | some row =>
        have hrow' : (moves.foldl relinkRow changed).row? r =
            some { row with entries := row.entries.learn r moves } := by
          rw [row?_foldl_relinkRow, hchanged, row?_modifyColumn, hrow, Option.map_some]
        rw [cell_row hrow', cell_row hrow, Incidence.getElem?_learn, Option.map_map, Option.map_map]
        congr 1
        funext e
        simp [Entry.map, Move.told_map Line.row_injective]
  · intro y hy
    cases y with
    | column d => simp only [grid, column_foldl_relinkRow, hother hy]
    | row r =>
      simp only [grid, row?_foldl_relinkRow, hchanged, row?_modifyColumn, Option.map_map,
        Function.comp_def, Incidence.nrActive_learn]
  · funext y
    cases y with
    | column d =>
      by_cases hd : Line.column d = .column c
      · cases hd
        simp only [grid, column_foldl_relinkRow, hself]
        rfl
      · simp only [grid, column_foldl_relinkRow, hother hd]
    | row r =>
      simp only [grid, row?_foldl_relinkRow, hchanged, row?_modifyColumn, Option.any_map]
      rfl
  · intro y hy hcounted
    cases y with
    | column d =>
      rw [CountedAt, column_foldl_relinkRow, hother hy]
      exact hcounted
    | row r =>
      intro row' hrow'
      rw [row?_foldl_relinkRow, hchanged, row?_modifyColumn] at hrow'
      obtain ⟨row, hrow, rfl⟩ := Option.map_eq_some_iff.mp hrow'
      refine Incidence.counted_learn (hcounted row hrow) fun move hmem hpartner => ?_
      obtain ⟨row', e, hfound, he, hlink⟩ := hheard hmem
      rw [hpartner, hrow] at hfound
      cases hfound
      exact ⟨e, he, hlink⟩
  · rw [column_foldl_relinkRow, hself]

theorem ends_rearrangeRow {F : Incidence ColumnRef → Incidence ColumnRef × List (Move ColumnRef)}
    (hrow : m.row? r = some row) (hmoves : m.Heard ((F row.entries).2.map (Move.map .column))) :
    Ends (rearrangeRow r F) m
      (fun _ m' => m.Replaced m' (.row r) ((F row.entries).2.map (Move.map .column)) ∧
        ∃ row', m'.row? r = some row' ∧ row'.entries = (F row.entries).1) E := by
  simp only [rearrangeRow, Ends.bind_iff, ends_getRow hrow, ends_updateRow hrow]
  generalize F row.entries = result at hmoves ⊢
  obtain ⟨l, moves⟩ := result
  rw [ends_tellColumns]
  set changed := m.modifyRow r ({ · with entries := l }) with hchanged
  have hself : changed.row? r = some { row with entries := l } := by
    rw [hchanged, row?_modifyRow, if_pos rfl, hrow, Option.map_some]
  have hother {s : RowRef} (hs : Line.row s ≠ .row r) : changed.row? s = m.row? s := by
    rw [hchanged, row?_modifyRow, if_neg fun heq => hs (by rw [heq])]
  refine ⟨⟨?_, ⟨?_, ?_, ?_⟩, ?_⟩, ?_⟩
  · rw [without_foldl_relinkColumn, hchanged]
    exact without_modifyRow _ _ fun _ => rfl
  · intro y k hy
    cases y with
    | column c =>
      rw [cell_column, cell_column, column_foldl_relinkColumn, Incidence.getElem?_learn,
        Option.map_map, Option.map_map, hchanged, column_modifyRow]
      congr 1
      funext e
      simp [Entry.map, Move.told_map Line.column_injective]
    | row s =>
      have hnone (link : Option Nat) :
          Move.told (moves.map (Move.map Line.column)) (Line.row s) k link = link := by
        refine Move.told_of_forall_ne (fun move hmem hmove => ?_) link
        obtain ⟨move, -, rfl⟩ := List.mem_map.mp hmem
        cases hmove.1
      have hsame : (moves.foldl relinkColumn changed).row? s = m.row? s := by
        rw [row?_foldl_relinkColumn, hother hy]
      simp [Grid.cell, grid, hsame, hnone]
  · intro y hy
    cases y with
    | column c =>
      simp only [grid, column_foldl_relinkColumn, hchanged, column_modifyRow,
        Incidence.nrActive_learn]
    | row s => simp only [grid, row?_foldl_relinkColumn, hother hy]
  · funext y
    cases y with
    | column c =>
      simp only [grid, column_foldl_relinkColumn, hchanged, column_modifyRow]
      rfl
    | row s =>
      by_cases hs : Line.row s = .row r
      · cases hs
        simp only [grid, row?_foldl_relinkColumn, hself, hrow]
        rfl
      · simp only [grid, row?_foldl_relinkColumn, hother hs]
  · intro y hy hcounted
    cases y with
    | column c =>
      rw [CountedAt, column_foldl_relinkColumn, hchanged, column_modifyRow]
      refine Incidence.counted_learn hcounted fun move hmem hpartner => ?_
      obtain ⟨e, he, hlink⟩ := hmoves _ (List.mem_map_of_mem hmem)
      obtain ⟨e, hat, rfl⟩ := partner_of_cell_column he
      rw [hpartner] at hat
      exact ⟨e, hat, hlink⟩
    | row s =>
      intro row' hrow'
      rw [row?_foldl_relinkColumn, hother hy] at hrow'
      exact hcounted row' hrow'
  · exact ⟨_, by rw [row?_foldl_relinkColumn, hself], rfl⟩

/-! ## Changing the entries of one line -/

section ModifyEntries

theorem grid_modifyColumn_entries (hc : m.Has (.column c)) {F : Incidence RowRef → Incidence RowRef}
    (hnr : ∀ l, (F l).nrActive = l.nrActive) :
    (m.modifyColumn c fun column => { column with entries := F column.entries }).grid =
      m.grid.update (.column c) ((F (m.column c).entries).entries.map (Entry.map .row)) := by
  have hself := column_modifyColumn_self hc fun column => { column with entries := F column.entries }
  rw [grid, grid, Grid.update, Grid.mk.injEq]
  refine ⟨?_, ?_, ?_⟩ <;> funext y <;> cases y with
  | row s => rfl
  | column d =>
    by_cases hd : c = d
    · subst hd
      simp only [hself, Function.update_self, hnr, Column.isActive]
    · simp only [column_modifyColumn_of_ne hd]
      try rw [Function.update_of_ne fun heq => hd (Line.column_injective heq).symm]

theorem grid_modifyRow (hrow : m.row? r = some row) {f : Row → Row}
    (hactive : (f row).isActive = row.isActive)
    (hnr : (f row).entries.nrActive = row.entries.nrActive) :
    (m.modifyRow r f).grid =
      m.grid.update (.row r) ((f row).entries.entries.map (Entry.map .column)) := by
  rw [grid, grid, Grid.update, Grid.mk.injEq]
  refine ⟨?_, ?_, ?_⟩ <;> funext y <;> cases y with
  | column d => rfl
  | row s =>
    by_cases hs : r = s
    · subst hs
      simp [row?_modifyRow, hrow, hnr, hactive]
    · simp only [row?_modifyRow, if_neg hs]
      try rw [Function.update_of_ne fun heq => hs (Line.row_injective heq).symm]

theorem grid_modifyRow_entries (hrow : m.row? r = some row)
    {F : Incidence ColumnRef → Incidence ColumnRef} (hnr : ∀ l, (F l).nrActive = l.nrActive) :
    (m.modifyRow r fun row => { row with entries := F row.entries }).grid =
      m.grid.update (.row r) ((F row.entries).entries.map (Entry.map .column)) :=
  grid_modifyRow hrow rfl (hnr _)

theorem countedAt_modifyColumn_entries (hc : m.Has (.column c))
    {F : Incidence RowRef → Incidence RowRef} (hm : ∀ y, m.CountedAt y)
    (hF : (F (m.column c).entries).Counted) (y : Line) :
    (m.modifyColumn c fun column => { column with entries := F column.entries }).CountedAt y := by
  cases y with
  | row s => exact hm (.row s)
  | column d =>
    by_cases hd : c = d
    · subst hd
      rw [CountedAt, column_modifyColumn_self hc]
      exact hF
    · rw [CountedAt, column_modifyColumn_of_ne hd]
      exact hm (.column d)

theorem countedAt_modifyRow (hrow : m.row? r = some row) {f : Row → Row}
    (hm : ∀ y, m.CountedAt y) (hf : (f row).entries.Counted) (y : Line) :
    (m.modifyRow r f).CountedAt y := by
  cases y with
  | column d => exact hm (.column d)
  | row s =>
    intro row' hrow'
    rw [row?_modifyRow] at hrow'
    split at hrow'
    · next heq =>
      subst heq
      rw [hrow] at hrow'
      cases hrow'
      exact hf
    · exact hm (.row s) row' hrow'

theorem countedAt_modifyRow_entries (hrow : m.row? r = some row)
    {F : Incidence ColumnRef → Incidence ColumnRef} (hm : ∀ y, m.CountedAt y)
    (hF : (F row.entries).Counted) (y : Line) :
    (m.modifyRow r fun row => { row with entries := F row.entries }).CountedAt y :=
  countedAt_modifyRow hrow hm hF y

theorem map_modify {κ μ : Type} (name : κ → μ) (es : Array (Entry κ)) (i : Nat)
    {f : Entry κ → Entry κ} {g : Entry μ → Entry μ} (h : ∀ e, (f e).map name = g (e.map name)) :
    (es.modify i f).map (Entry.map name) = (es.map (Entry.map name)).modify i g := by
  apply Array.ext_getElem?
  intro j
  rw [Array.getElem?_map, Array.getElem?_modify, Array.getElem?_modify, Array.getElem?_map]
  split
  · rw [Option.map_map, Option.map_map]
    exact congrArg (Option.map · es[j]?) (funext h)
  · rfl

end ModifyEntries

end ConstraintMatrix

end CertifiedLp
