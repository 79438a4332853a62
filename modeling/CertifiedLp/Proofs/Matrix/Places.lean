import Mathlib
import CertifiedLp.Proofs.Matrix.Merging

/-!
# Places

Where the lines of a matrix are, in the active linear program and in the solver, without their
coefficients. The operations that move lines have simple equations for the places. Lines are *placed*
according to the lists of active lines if each line knows its positions in these and in the lists
for the solver.
-/

namespace CertifiedLp

/-! ## Positions in lists -/

section Indexes

variable {κ : Type} {among among' : κ → Prop} {position position' : κ → Option Nat}
variable {list xs ys : Array κ} {k : κ} {i n : Nat}

/-- References know their positions in a list, or that they are not there. -/
def Indexes (among : κ → Prop) (position : κ → Option Nat) (list : Array κ) : Prop :=
  ∀ k, among k → ∀ i, position k = some i ↔ list[i]? = some k

theorem Indexes.congr (h : Indexes among position list)
    (hposition : ∀ k, among' k → among k ∧ position' k = position k) :
    Indexes among' position' list := by
  intro k hk i
  rw [(hposition k hk).2]
  exact h k (hposition k hk).1 i

theorem Indexes.position_eq_none (h : Indexes among position list) (hk : among k)
    (hmem : k ∉ list) : position k = none := by
  rw [Option.eq_none_iff_forall_ne_some]
  intro i hi
  exact hmem (Array.mem_of_getElem? ((h k hk i).mp hi))

theorem Indexes.isSome_of_mem (h : Indexes among position list) (hk : among k) (hmem : k ∈ list) :
    (position k).isSome = true := by
  obtain ⟨i, hi⟩ := Array.mem_iff_getElem?.mp hmem
  rw [(h k hk i).mpr hi]
  rfl

/-- A reference is at one position only. -/
theorem Indexes.injective (h : Indexes among position list) (hk : among k) {i j : Nat}
    (hi : list[i]? = some k) (hj : list[j]? = some k) : i = j :=
  Option.some.inj (((h k hk i).mpr hi).symm.trans ((h k hk j).mpr hj))

/-- A list with known positions has no repetitions. -/
theorem Indexes.nodup (h : Indexes (fun _ => True) position list) : list.toList.Nodup := by
  rw [List.nodup_iff_injective_getElem]
  intro i j hij
  have hi : list[i.val]? = some list.toList[i.val] := by simp
  have hj : list[j.val]? = some list.toList[i.val] := by
    rw [show list.toList[i.val] = list.toList[j.val] from hij]
    simp
  exact Fin.ext (h.injective trivial hi hj)

variable [DecidableEq κ]

theorem Indexes.push (h : Indexes among position list) (hnone : among k → position k = none)
    (hposition : ∀ j, among j → position' j = if j = k then some list.size else position j) :
    Indexes among position' (list.push k) := by
  intro j hj i
  rw [hposition j hj, Array.getElem?_push]
  by_cases hjk : j = k
  · subst hjk
    rw [if_pos rfl]
    split
    · next hi => simp [hi]
    · next hi =>
      rw [← h j hj i, hnone hj]
      simp [eq_comm, hi]
  · rw [if_neg hjk, h j hj i]
    split
    · next hi =>
      subst hi
      simp [Ne.symm hjk]
    · exact Iff.rfl

/-- The end of a list is cut off, and the references there do not have a position any more. -/
theorem Indexes.truncate (h : Indexes among position list)
    (hposition : ∀ j, among' j → among j ∧
      position' j = if j ∈ list.extract n list.size then none else position j) :
    Indexes among' position' (list.extract 0 n) := by
  intro j hj i
  obtain ⟨hamong, hposition⟩ := hposition j hj
  have hmem : j ∈ list.extract n list.size ↔ ∃ i, n ≤ i ∧ list[i]? = some j := by
    rw [Array.mem_iff_getElem?]
    constructor
    · rintro ⟨a, ha⟩
      rw [Array.getElem?_extract] at ha
      split at ha
      · exact ⟨n + a, by omega, ha⟩
      · cases ha
    · rintro ⟨a, hle, ha⟩
      have hlt := (Array.getElem?_eq_some_iff.mp ha).1
      refine ⟨a - n, ?_⟩
      rw [Array.getElem?_extract, if_pos (by omega), show n + (a - n) = a by omega, ha]
  have hfront : (list.extract 0 n)[i]? = some j ↔ i < n ∧ list[i]? = some j := by
    rw [Array.getElem?_extract, Nat.zero_add]
    constructor
    · intro hi
      split at hi
      · exact ⟨by omega, hi⟩
      · cases hi
    · rintro ⟨hlt, hi⟩
      have := (Array.getElem?_eq_some_iff.mp hi).1
      rw [if_pos (by omega), hi]
  rw [hposition, hfront, ← h j hamong i]
  split
  · next hend =>
    obtain ⟨a, hle, ha⟩ := hmem.mp hend
    rw [(h j hamong a).mpr ha]
    simp only [reduceCtorEq, Option.some.injEq, false_iff, not_and]
    omega
  · next hend =>
    refine ⟨fun hi => ⟨?_, hi⟩, And.right⟩
    by_contra hle
    exact hend (hmem.mpr ⟨i, Nat.not_lt.mp hle, (h j hamong i).mp hi⟩)

end Indexes

/-- Two lists agree below a position that is behind the end of neither of them. -/
structure AgreeBelow {κ : Type} (n : Nat) (xs ys : Array κ) : Prop where
  le_left : n ≤ xs.size
  le_right : n ≤ ys.size
  agree : ∀ i, i < n → xs[i]? = ys[i]?

namespace AgreeBelow

variable {κ : Type} {xs ys : Array κ} {n k : Nat}

theorem mono (h : AgreeBelow n xs ys) (hk : k ≤ n) : AgreeBelow k xs ys :=
  ⟨hk.trans h.le_left, hk.trans h.le_right, fun i hi => h.agree i (Nat.lt_of_lt_of_le hi hk)⟩

theorem refl (xs : Array κ) : AgreeBelow xs.size xs xs :=
  ⟨Nat.le_refl _, Nat.le_refl _, fun _ _ => rfl⟩

theorem truncate_left (h : AgreeBelow n xs ys) (k : Nat) :
    AgreeBelow (min n k) (xs.extract 0 k) ys := by
  refine ⟨?_, (Nat.min_le_left n k).trans h.le_right, fun i hi => ?_⟩
  · have := h.le_left
    simp only [Array.size_extract]
    omega
  · have := h.le_left
    rw [Array.getElem?_extract, if_pos (by omega), Nat.zero_add]
    exact h.agree i (by omega)

theorem truncate_right (h : AgreeBelow n xs ys) : AgreeBelow n xs (ys.extract 0 n) := by
  have := h.le_right
  refine ⟨h.le_left, by simp only [Array.size_extract]; omega, fun i hi => ?_⟩
  rw [Array.getElem?_extract, if_pos (by omega), Nat.zero_add]
  exact h.agree i hi

/-- Only the front of a list matters. -/
theorem of_truncate_left (h : AgreeBelow n (xs.extract 0 k) ys) : AgreeBelow n xs ys := by
  have hsize := h.le_left
  rw [Array.size_extract] at hsize
  refine ⟨by omega, h.le_right, fun i hi => ?_⟩
  rw [← h.agree i hi, Array.getElem?_extract, if_pos (by omega), Nat.zero_add]

theorem push_left (h : AgreeBelow n xs ys) (x : κ) : AgreeBelow n (xs.push x) ys := by
  have := h.le_left
  refine ⟨by simp only [Array.size_push]; omega, h.le_right, fun i hi => ?_⟩
  rw [Array.getElem?_push, if_neg (by omega)]
  exact h.agree i hi

/-- A list is extended by what the other one has next. -/
theorem push_right (h : AgreeBelow ys.size xs ys) {x : κ} (hx : xs[ys.size]? = some x) :
    AgreeBelow (ys.push x).size xs (ys.push x) := by
  have hlt := (Array.getElem?_eq_some_iff.mp hx).1
  refine ⟨by simp only [Array.size_push]; omega, Nat.le_refl _, fun i hi => ?_⟩
  rw [Array.getElem?_push]
  split
  · next heq => rw [heq, hx]
  · next hne =>
    rw [Array.size_push] at hi
    exact h.agree i (by omega)

end AgreeBelow

/-! ## The places of a matrix -/

/-- Where a row is, and how many uses it has. -/
structure RowPlace where
  /-- The position in the active linear program. -/
  active : Option Nat
  /-- The position in the solver. -/
  solver : Option Nat
  /-- The number of uses. -/
  nrUses : Nat

/-- The place of a row. -/
def Row.place (row : Row) : RowPlace := ⟨row.activePosition, row.solverPosition, row.nrUses⟩

/-- Where all lines are. -/
structure Places where
  /-- The positions of the columns in the active linear program. -/
  activeColumn : ColumnRef → Option Nat
  /-- The positions of the columns in the solver. -/
  solverColumn : ColumnRef → Option Nat
  /-- The places of the rows that were not freed. -/
  row : RowRef → Option RowPlace
  /-- The number of rows that were created. -/
  nrRows : Nat
  /-- The columns in the solver. -/
  solverColumns : Array ColumnRef
  /-- The rows in the solver. -/
  solverRows : Array RowRef

namespace Places

/-- The position of a row in the active linear program. -/
def activeRow (p : Places) (r : RowRef) : Option Nat := (p.row r).bind (·.active)

/-- The position of a row in the solver. -/
def solverRow (p : Places) (r : RowRef) : Option Nat := (p.row r).bind (·.solver)

/-- Change the place of a row. -/
def modifyRow (p : Places) (r : RowRef) (f : RowPlace → RowPlace) : Places :=
  { p with row := fun s => if s = r then (p.row s).map f else p.row s }

/-- Create a row, which has one use. -/
def pushRow (p : Places) : Places :=
  { p with
    row := fun s => if s.index = p.nrRows then some ⟨none, none, 1⟩ else p.row s
    nrRows := p.nrRows + 1 }

/-- Free a row. -/
def dropRow (p : Places) (r : RowRef) : Places :=
  { p with row := fun s => if s = r then none else p.row s }

/-- Put a column elsewhere in the active linear program. -/
def moveColumn (p : Places) (c : ColumnRef) (position : Option Nat) : Places :=
  { p with activeColumn := fun d => if d = c then position else p.activeColumn d }

/-- Put a row elsewhere in the active linear program. -/
def moveRow (p : Places) (r : RowRef) (position : Option Nat) : Places :=
  p.modifyRow r ({ · with active := position })

/-- Change the number of uses of a row. -/
def modifyUses (p : Places) (r : RowRef) (f : Nat → Nat) : Places :=
  p.modifyRow r fun place => { place with nrUses := f place.nrUses }

end Places

namespace ConstraintMatrix

variable {m m' : ConstraintMatrix} {c d : ColumnRef} {r s : RowRef} {row : Row} {f : Row → Row}

/-- Where the lines of a matrix are. -/
def places (m : ConstraintMatrix) : Places where
  activeColumn c := (m.column c).activePosition
  solverColumn c := (m.column c).solverPosition
  row r := (m.row? r).map Row.place
  nrRows := m.rows.size
  solverColumns := m.solverColumns
  solverRows := m.solverRows

theorem isSome_row_places (m : ConstraintMatrix) (r : RowRef) :
    (m.places.row r).isSome = (m.row? r).isSome := by
  simp [places]

theorem row_places (h : m.row? r = some row) : m.places.row r = some row.place := by
  simp [places, h]

theorem isActive_row_places (m : ConstraintMatrix) (r : RowRef) :
    m.grid.isActive (.row r) = (m.places.activeRow r).isSome := by
  cases hrow : m.row? r with
  | none => simp [grid, Places.activeRow, places, hrow]
  | some row =>
    rw [isActive_row hrow, Places.activeRow, row_places hrow]
    rfl

theorem Stays.places (h : m.Stays m') : m'.places = m.places := by
  rw [ConstraintMatrix.places, ConstraintMatrix.places, Places.mk.injEq]
  refine ⟨funext fun c => h.column_congr Column.activePosition c fun _ => rfl,
    funext fun c => h.column_congr Column.solverPosition c fun _ => rfl,
    funext fun r => h.row?_congr Row.place r fun _ => rfl, h.size_rows, h.solverColumns,
    h.solverRows⟩

/-- A change of a row moves that row at most. -/
theorem places_modifyRow (m : ConstraintMatrix) (r : RowRef) {g : RowPlace → RowPlace}
    (h : ∀ row, (f row).place = g row.place) :
    (m.modifyRow r f).places = m.places.modifyRow r g := by
  rw [places, places, Places.modifyRow, Places.mk.injEq]
  refine ⟨rfl, rfl, funext fun s => ?_, ?_, rfl, rfl⟩
  · simp only [row?_modifyRow, eq_comm (a := r)]
    split
    · rw [Option.map_map, Option.map_map]
      exact congrArg (Option.map · _) (funext h)
    · rfl
  · simp [modifyRow]

theorem places_withActivePosition_row (m : ConstraintMatrix) (r : RowRef) (position : Option Nat) :
    (m.withActivePosition (.row r) position).places = m.places.moveRow r position :=
  places_modifyRow m r fun _ => rfl

/-- A change of a column moves that column at most. -/
theorem column_modifyColumn {g : Column → Column} (hc : m.Has (.column c)) (d : ColumnRef) :
    (m.modifyColumn c g).column d = if d = c then g (m.column d) else m.column d := by
  split
  · next heq =>
    subst heq
    exact column_modifyColumn_self hc g
  · next hne => exact column_modifyColumn_of_ne (Ne.symm hne) g

theorem places_withActivePosition_column (hc : m.Has (.column c)) (position : Option Nat) :
    (m.withActivePosition (.column c) position).places = m.places.moveColumn c position := by
  rw [places, places, withActivePosition, Places.moveColumn, Places.mk.injEq]
  refine ⟨funext fun d => ?_, funext fun d => ?_, rfl, rfl, rfl, rfl⟩
  · rw [column_modifyColumn hc]
    split <;> rfl
  · rw [column_modifyColumn hc]
    split <;> rfl

theorem places_withoutRow (m : ConstraintMatrix) (r : RowRef) :
    (m.withoutRow r).places = m.places.dropRow r := by
  rw [places, places, Places.dropRow, Places.mk.injEq]
  refine ⟨rfl, rfl, funext fun s => ?_, by simp [withoutRow], rfl, rfl⟩
  simp only [row?_withoutRow, eq_comm (a := r)]
  split <;> rfl

/-- A column that is somewhere exists. -/
theorem has_of_activeColumn {i : Nat} (h : m.places.activeColumn c = some i) :
    m.Has (.column c) := by
  have hposition : (m.column c).activePosition = some i := h
  refine lt_size_of_column_ne fun hdefault => ?_
  rw [hdefault] at hposition
  cases hposition

end ConstraintMatrix

/-! ## Lines that are placed -/

/-- Every line knows its positions in the lists of active lines and of lines in the solver, and
every row that was not freed has a use. -/
structure Placed (p : Places) (columns : Array ColumnRef) (rows : Array RowRef) : Prop where
  columns : Indexes (fun _ => True) p.activeColumn columns
  rows : Indexes (fun _ => True) p.activeRow rows
  solverColumns : Indexes (fun _ => True) p.solverColumn p.solverColumns
  solverRows : Indexes (fun r => (p.row r).isSome = true) p.solverRow p.solverRows
  known : ∀ r ∈ p.solverRows, r.index < p.nrRows
  used : ∀ {r place}, p.row r = some place → 0 < place.nrUses

/-- Rows have other positions in the active linear program and other numbers of uses, and some of
them may have been freed. -/
structure Shifted (p q : Places) : Prop where
  frame : q = { p with row := q.row }
  solver : ∀ {r place}, q.row r = some place → ∃ old, p.row r = some old ∧ place.solver = old.solver
  used : ∀ {r place}, q.row r = some place → 0 < place.nrUses

/-- Some rows left the active linear program, and some of the rows that are not active now may have
been freed. -/
structure Withdrawn (p q : Places) (gone : List RowRef) : Prop where
  shifted : Shifted p q
  active : ∀ r, q.activeRow r = if r ∈ gone then none else p.activeRow r

section RowPlaces

variable {p q u : Places} {r s : RowRef} {position : Option Nat} {f : RowPlace → RowPlace}
variable {place : RowPlace} {gone gone' : List RowRef}

namespace Places

theorem row_modifyRow_self (h : p.row r = some place) :
    (p.modifyRow r f).row r = some (f place) := by
  simp [modifyRow, h]

theorem exists_of_row_modifyRow (h : (p.modifyRow r f).row s = some place) :
    ∃ old, p.row s = some old ∧ place = if s = r then f old else old := by
  rw [modifyRow] at h
  simp only at h
  split at h
  · next heq =>
    obtain ⟨old, hold, rfl⟩ := Option.map_eq_some_iff.mp h
    exact ⟨old, hold, (if_pos heq).symm⟩
  · next hne => exact ⟨place, h, (if_neg hne).symm⟩

theorem activeRow_moveRow (h : p.row r = some place) (s : RowRef) :
    (p.moveRow r position).activeRow s = if s = r then position else p.activeRow s := by
  rw [activeRow, activeRow, moveRow, modifyRow]
  simp only
  split
  · next heq => rw [heq, h, Option.map_some, Option.bind_some]
  · rfl

/-- Active rows were not freed. -/
theorem exists_row_of_activeRow {i : Nat} (h : p.activeRow r = some i) :
    ∃ place, p.row r = some place := by
  cases hrow : p.row r with
  | none =>
    rw [activeRow, hrow] at h
    cases h
  | some place => exact ⟨place, rfl⟩

theorem row_modifyRow_of_ne (h : s ≠ r) : (p.modifyRow r f).row s = p.row s := if_neg h

theorem row_dropRow_of_ne (h : s ≠ r) : (p.dropRow r).row s = p.row s := if_neg h

theorem isSome_row_modifyRow (p : Places) (r : RowRef) (f : RowPlace → RowPlace) (s : RowRef) :
    ((p.modifyRow r f).row s).isSome = (p.row s).isSome := by
  rw [modifyRow]
  simp only
  split
  · rw [Option.isSome_map]
  · rfl

/-- The rows in a list of active rows were not freed. -/
theorem isSome_row_of_mem {rows : Array RowRef} (h : Indexes (fun _ => True) p.activeRow rows)
    (hr : r ∈ rows) : (p.row r).isSome = true := by
  obtain ⟨i, hi⟩ := Option.isSome_iff_exists.mp (h.isSome_of_mem trivial hr)
  obtain ⟨place, hplace⟩ := exists_row_of_activeRow hi
  rw [hplace]
  rfl

/-- What does not move a row. -/
theorem activeRow_modifyRow (hf : ∀ place, (f place).active = place.active) (s : RowRef) :
    (p.modifyRow r f).activeRow s = p.activeRow s := by
  rw [activeRow, activeRow, modifyRow]
  simp only
  split
  · cases p.row s with
    | none => rfl
    | some place => exact hf place
  · rfl

theorem activeRow_modifyUses (p : Places) (r : RowRef) (f : Nat → Nat) (s : RowRef) :
    (p.modifyUses r f).activeRow s = p.activeRow s :=
  activeRow_modifyRow (p := p) (f := fun place => { place with nrUses := f place.nrUses })
    (fun _ => rfl) s

end Places

namespace Shifted

theorem trans (h : Shifted p q) (h' : Shifted q u) : Shifted p u where
  frame := by
    rw [h'.frame, h.frame]
  solver hplace := by
    obtain ⟨old, hold, hsolver⟩ := h'.solver hplace
    obtain ⟨older, holder, hsolver'⟩ := h.solver hold
    exact ⟨older, holder, hsolver.trans hsolver'⟩
  used := h'.used

variable (hp : ∀ {r place}, p.row r = some place → 0 < place.nrUses)
include hp

theorem refl : Shifted p p := ⟨rfl, fun {_ place} h => ⟨place, h, rfl⟩, hp⟩

theorem modifyRow (hsolver : ∀ place, (f place).solver = place.solver)
    (huses : ∀ place, p.row r = some place → 0 < (f place).nrUses) :
    Shifted p (p.modifyRow r f) where
  frame := rfl
  solver hplace := by
    obtain ⟨old, hold, rfl⟩ := Places.exists_of_row_modifyRow hplace
    refine ⟨old, hold, ?_⟩
    split
    · exact hsolver old
    · rfl
  used {s place} hplace := by
    obtain ⟨old, hold, rfl⟩ := Places.exists_of_row_modifyRow hplace
    split
    · next heq => exact huses old (heq ▸ hold)
    · exact hp hold

theorem moveRow (r : RowRef) (position : Option Nat) : Shifted p (p.moveRow r position) :=
  modifyRow hp (fun _ => rfl) fun _ => hp

end Shifted

namespace Withdrawn

theorem trans (h : Withdrawn p q gone) (h' : Withdrawn q u gone') :
    Withdrawn p u (gone ++ gone') where
  shifted := h.shifted.trans h'.shifted
  active r := by
    rw [h'.active, h.active]
    by_cases hgone : r ∈ gone <;> by_cases hgone' : r ∈ gone' <;> simp [hgone, hgone']

/-- A row is live as long as it is active. -/
theorem exists_row (h : Withdrawn p q gone) {i : Nat} (hr : p.activeRow r = some i)
    (hgone : r ∉ gone) : ∃ place, q.row r = some place := by
  have hactive : q.activeRow r = some i := by rw [h.active, if_neg hgone, hr]
  exact Places.exists_row_of_activeRow hactive

variable (hp : ∀ {r place}, p.row r = some place → 0 < place.nrUses)
include hp

theorem refl : Withdrawn p p [] := ⟨.refl hp, fun _ => by simp⟩

/-- A row leaves the active linear program. -/
theorem moveRow (hr : p.row r = some place) : Withdrawn p (p.moveRow r none) [r] where
  shifted := .moveRow hp r none
  active s := by
    rw [Places.activeRow_moveRow hr]
    simp

/-- A row with several uses loses one of them. -/
theorem unuse (huses : ∀ place, p.row r = some place → 1 < place.nrUses) :
    Withdrawn p (p.modifyUses r (· - 1)) [] where
  shifted := .modifyRow hp (fun _ => rfl) fun place hr => Nat.sub_pos_of_lt (huses place hr)
  active s := by
    rw [Places.activeRow_modifyUses]
    simp

/-- A row that is not active is freed. -/
theorem dropRow (hr : p.activeRow r = none) : Withdrawn p (p.dropRow r) [] where
  shifted := by
    have hold {s : RowRef} {place : RowPlace} (h : (p.dropRow r).row s = some place) :
        p.row s = some place := by
      rw [Places.dropRow] at h
      simp only at h
      split at h
      · cases h
      · exact h
    exact ⟨rfl, fun {_ place} h => ⟨place, hold h, rfl⟩, fun h => hp (hold h)⟩
  active s := by
    by_cases heq : s = r
    · subst heq
      simpa [Places.dropRow, Places.activeRow, eq_comm] using hr
    · simp [Places.dropRow, Places.activeRow, heq]

end Withdrawn

end RowPlaces

namespace Placed

variable {p : Places} {columns : Array ColumnRef} {rows : Array RowRef} {c : ColumnRef} {r : RowRef}

theorem enterColumn (h : Placed p columns rows) (hc : p.activeColumn c = none) :
    Placed (p.moveColumn c (some columns.size)) (columns.push c) rows :=
  { h with columns := h.columns.push (fun _ => hc) fun _ _ => rfl }

/-- Columns leave the active linear program. -/
theorem leaveColumns (h : Placed p columns rows) {n : Nat} {position : ColumnRef → Option Nat}
    (hposition : ∀ c, position c =
      if c ∈ columns.extract n columns.size then none else p.activeColumn c) :
    Placed { p with activeColumn := position } (columns.extract 0 n) rows :=
  { h with columns := h.columns.truncate fun c _ => ⟨trivial, hposition c⟩ }

/-- Rows have other positions, which are those of another list. -/
theorem shift {q : Places} (h : Placed p columns rows) (hq : Shifted p q) {rows' : Array RowRef}
    (hrows : Indexes (fun _ => True) q.activeRow rows') : Placed q columns rows' where
  columns := by
    rw [hq.frame]
    exact h.columns
  rows := hrows
  solverColumns := by
    rw [hq.frame]
    exact h.solverColumns
  solverRows := by
    have hlist : q.solverRows = p.solverRows := by rw [hq.frame]
    rw [hlist]
    refine h.solverRows.congr fun s hs => ?_
    obtain ⟨place, hplace⟩ := Option.isSome_iff_exists.mp hs
    obtain ⟨old, hold, hsolver⟩ := hq.solver hplace
    rw [Places.solverRow, Places.solverRow, hplace, hold]
    exact ⟨rfl, hsolver⟩
  known := by
    rw [hq.frame]
    exact h.known
  used := hq.used

/-- A row gets another use. -/
theorem use (h : Placed p columns rows) (r : RowRef) :
    Placed (p.modifyUses r (· + 1)) columns rows := by
  have hshifted : Shifted p (p.modifyUses r (· + 1)) :=
    .modifyRow h.used (fun _ => rfl) fun _ _ => Nat.succ_pos _
  exact h.shift hshifted (h.rows.congr fun s _ => ⟨trivial, p.activeRow_modifyUses r _ s⟩)

/-- A row enters the active linear program. -/
theorem enterRow (h : Placed p columns rows) {place : RowPlace} (hr : p.row r = some place)
    (hactive : place.active = none) :
    Placed (p.moveRow r (some rows.size)) columns (rows.push r) := by
  refine h.shift (.moveRow h.used r _) (h.rows.push (fun _ => ?_) fun s _ =>
    Places.activeRow_moveRow hr s)
  rw [Places.activeRow, hr]
  exact hactive

/-- A row is created. -/
theorem pushRow (h : Placed p columns rows)
    (hlive : ∀ r, (p.row r).isSome = true → r.index < p.nrRows) :
    Placed p.pushRow columns rows := by
  have hnew {s : RowRef} (hs : s.index = p.nrRows) : p.row s = none := by
    rw [← Option.not_isSome_iff_eq_none]
    exact fun hsome => Nat.ne_of_lt (hlive s hsome) hs
  refine { h with rows := ?_, solverRows := ?_, known := ?_, used := ?_ }
  · refine h.rows.congr fun s _ => ⟨trivial, ?_⟩
    rw [Places.activeRow, Places.activeRow, Places.pushRow]
    simp only
    split
    · next hs =>
      rw [hnew hs]
      rfl
    · rfl
  · intro s hs i
    rw [Places.solverRow, Places.pushRow] at *
    simp only at hs ⊢
    split at hs
    · next hindex =>
      rw [if_pos hindex]
      refine ⟨fun hi => (nomatch hi), fun hi => ?_⟩
      exact (Nat.ne_of_lt (h.known s (Array.mem_of_getElem? hi)) hindex).elim
    · next hindex =>
      rw [if_neg hindex]
      exact h.solverRows s hs i
  · exact fun s hs => Nat.lt_succ_of_lt (h.known s hs)
  · intro s place hs
    rw [Places.pushRow] at hs
    simp only at hs
    split at hs
    · cases hs
      exact Nat.one_pos
    · exact h.used hs

end Placed

end CertifiedLp
