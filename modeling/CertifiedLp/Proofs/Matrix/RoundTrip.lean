import Mathlib
import CertifiedLp.Proofs.Matrix.Crossing

/-!
# Adding and deleting a coefficient

A coefficient is added to lists that have none for it, and deleted again. Both lists have the same
entries in the same parts as before. The order is that of the keys: the addition sorts the parts
that it searches, and the deletion sorts the part where it finds the entry, and then fills the hole
from the end of that part.
-/

namespace CertifiedLp

open Reference (index)

/-! ## Where a coefficient is stored -/

/-- The part of the column where an addition stores a coefficient, by which of the two lines are
active. -/
def Edit.columnSeat (columnActive rowActive : Bool) : Edit → Option Part
  | addInColumn _ => some (Part.ofEntry rowActive columnActive)
  | addInRow _ => if rowActive then some .active else none
  | _ => none

/-- The part of the row where an addition stores a coefficient. -/
def Edit.rowSeat (columnActive rowActive : Bool) : Edit → Option Part
  | addInColumn _ => if columnActive then some .active else none
  | addInRow _ => some (Part.ofEntry columnActive rowActive)
  | _ => none

/-- The part of the row where a deletion finds the coefficient again. It looks into the row only if
the column has none. -/
def Edit.rowHole (columnActive rowActive : Bool) (e : Edit) : Option Part :=
  if (e.columnSeat columnActive rowActive).isSome then none else e.rowSeat columnActive rowActive

namespace ConstraintMatrix

variable {m m' t u : ConstraintMatrix} {c : ColumnRef} {r : RowRef} {row : Row} {v : Extended}
variable {a b : Bool} {K L : Keys} {forth back forth' back' : Multiset (Extended × Bool)} {e : Edit}

/-- A column and a row store other things for each other, and the same lines are active. -/
structure Exchanged (m m' : ConstraintMatrix) (c : ColumnRef) (r : RowRef)
    (forth back : Multiset (Extended × Bool)) : Prop where
  sound : m'.Sound
  isActive : m'.grid.isActive = m.grid.isActive
  stored : m'.grid.stored = m.storedWith (.column c) (.row r) forth back

theorem Updated.exchanged (h : Updated m m' (.column c) (.row r) forth back) :
    Exchanged m m' c r forth back := ⟨h.sound, isActive_congr h.without, h.stored⟩

theorem Exchanged.rebase (hsame : m.SameContent t) (h : Exchanged t m' c r forth back) :
    Exchanged m m' c r forth back where
  sound := h.sound
  isActive := h.isActive.trans (isActive_congr hsame.without)
  stored := by
    rw [h.stored]
    funext x y
    rw [storedWith, storedWith, hsame.stored]

theorem Exchanged.remark (h : Exchanged m t c r forth back) (h' : Remarked t m') :
    Exchanged m m' c r forth back where
  sound := h.sound.congr h'.shape
  isActive := by rw [grid_eq_of_shape h'.shape, h.isActive]
  stored := by rw [grid_eq_of_shape h'.shape, h.stored]

theorem Exchanged.trans (h : Exchanged m t c r forth back) (h' : Exchanged t m' c r forth' back') :
    Exchanged m m' c r forth' back' where
  sound := h'.sound
  isActive := h'.isActive.trans h.isActive
  stored := by
    rw [h'.stored]
    funext x y
    rw [storedWith, storedWith, h.stored]
    split
    · rfl
    · next hforth =>
      split
      · rfl
      · next hback => exact storedWith_of_ne hforth hback

/-- A coefficient was stored and noted. -/
theorem Exchanged.ends_notes (h : Exchanged m t c r forth back) (hcross : Crossing c r a b K L t) :
    Ends (do noteIntegrality c r v; announceChange c r) t
      (fun _ u => Exchanged m u c r forth back ∧ Crossing c r a b K L u) fun _ _ => False := by
  obtain ⟨row, hrow, -⟩ := hcross.row
  rw [Ends.bind_iff]
  refine ((ends_noteIntegrality hrow).and (hcross.ends_noteIntegrality)).mono (fun _ u hu => ?_)
    fun _ _ he => he.1
  obtain ⟨row', hrow', -⟩ := hu.2.row
  refine ((remarked_announceChange hrow').and hu.2.ends_announceChange).mono (fun _ w hw => ?_)
    fun _ _ he => he.1
  exact ⟨(h.remark hu.1).remark hw.1, hw.2⟩

/-! ## Adding -/

/-- A coefficient was searched in both lists in vain, and then stored. -/
structure Added (m t : ConstraintMatrix) (c : ColumnRef) (r : RowRef) (row : Row) (e : Edit) :
    Prop where
  exchanged : ∃ forth back, Exchanged m t c r forth back ∧
    (forth = 0 ↔ e.columnSeat (m.column c).isActive row.isActive = none) ∧
    (back = 0 ↔ e.rowSeat (m.column c).isActive row.isActive = none)
  keys : ∃ K L,
    Keys.Sifted (candidates row.isActive (m.column c).entries.nrUnlinked)
      (m.column c).entries.keys K ∧
    Keys.Sifted (candidates (m.column c).isActive row.entries.nrUnlinked) row.entries.keys L ∧
    Crossing c r (m.column c).isActive row.isActive
      (K.store (index r) (e.columnSeat (m.column c).isActive row.isActive))
      (L.store (index c) (e.rowSeat (m.column c).isActive row.isActive)) t

section Adding

variable (hm : m.Sound) (hc : m.Has (.column c)) (hrow : m.row? r = some row)
variable (hopen : row.isOpen = true)

include hm hc hrow hopen

theorem Sound.crossing : Crossing c r (m.column c).isActive row.isActive (m.column c).entries.keys
    row.entries.keys m :=
  ⟨hc, rfl, Incidence.keyed (hm.wired.nrActive_le (m.shows_column c)), row, hrow, rfl, hopen,
    Incidence.keyed (hm.wired.nrActive_le (shows_row hrow))⟩

variable (hforth : m.grid.stored (.column c) (.row r) = 0)
variable (hback : m.grid.stored (.row r) (.column c) = 0)

include hforth hback

/-- The two searches before a coefficient is stored. -/
theorem ends_searches {E : LpError → ConstraintMatrix → Prop} :
    Ends (findInColumn c r) m (fun found t => found = none ∧
      Ends (findInRow r c) t (fun found u => found = none ∧ ∃ K L,
        Keys.Sifted (candidates row.isActive (m.column c).entries.nrUnlinked)
          (m.column c).entries.keys K ∧
        Keys.Sifted (candidates (m.column c).isActive row.entries.nrUnlinked) row.entries.keys L ∧
        (u.Sound ∧ m.SameContent u) ∧
        Crossing c r (m.column c).isActive row.isActive K L u) E) E := by
  refine ((hm.crossing hc hrow hopen).ends_findInColumn_inVain hm hforth).mono_ok ?_
  rintro _ t ⟨rfl, K, hsifted, ⟨hsound, hsame⟩, hcross⟩
  obtain ⟨row', hrow', hreordered⟩ := (hsame.reordered hm hsound).row hrow
  rw [← hsame.stored] at hback
  refine ⟨rfl, (hcross.ends_findInRow_inVain hsound hrow' hback).mono_ok ?_⟩
  rintro _ u ⟨rfl, L, hsifted', ⟨hsound', hsame'⟩, hcross'⟩
  rw [hreordered.nrUnlinked] at hsifted'
  exact ⟨rfl, K, L, hsifted, hsifted', ⟨hsound', hsame.trans hsame'⟩, hcross'⟩

theorem ends_addInColumn_added (hv : v.isFinite = true ∧ v ≠ 0) :
    Ends (addInColumn c r v) m (fun _ t => Added m t c r row (.addInColumn v))
      fun _ _ => False := by
  obtain ⟨hunlocked, hordered⟩ := Row.isOpen_iff.mp hopen
  rw [addInColumn, Ends.bind_iff, ends_checkUnlocked hrow]
  refine ⟨fun hlocked => by simp_all, fun _ => ?_⟩
  rw [if_neg (by simpa [Extended.isZero] using hv.2), Ends.bind_iff, ends_checkOrdered hrow]
  refine ⟨fun hdelayed => by simp_all, fun _ => ?_⟩
  rw [Ends.bind_iff]
  refine (ends_searches hm hc hrow hopen hforth hback).mono_ok ?_
  rintro _ t ⟨rfl, hrest⟩
  rw [if_neg (by simp), Ends.bind_iff]
  refine hrest.mono_ok ?_
  rintro _ t ⟨rfl, K, L, hK, hL, ⟨hsound, hsame⟩, hcross⟩
  obtain ⟨row', hrow', -⟩ := hcross.row
  rw [if_neg (by simp), Ends.bind_iff]
  refine ((ends_insertInColumn (E := fun _ _ => False) hsound hcross.has hrow' hv
    (by rw [hsame.stored]; exact hforth) (by rw [hsame.stored]; exact hback)).and
      hcross.ends_insertInColumn).mono (fun _ u hu => ?_) fun _ _ he => he.1
  rw [hcross.columnActive] at hu
  refine (((hu.1.exchanged.rebase hsame).ends_notes hu.2).mono_ok fun _ w hw => ?_)
  refine ⟨⟨_, _, hw.1, ?_, ?_⟩, K, L, hK, hL, hw.2⟩
  · simp [Edit.columnSeat]
  · simp only [Edit.rowSeat]
    split <;> simp

theorem ends_addInRow_added (hv : v.isFinite = true ∧ v ≠ 0) :
    Ends (addInRow r c v) m (fun _ t => Added m t c r row (.addInRow v)) fun _ _ => False := by
  obtain ⟨hunlocked, hordered⟩ := Row.isOpen_iff.mp hopen
  rw [addInRow, Ends.bind_iff, ends_checkUnlocked hrow]
  refine ⟨fun hlocked => by simp_all, fun _ => ?_⟩
  rw [if_neg (by simpa [Extended.isZero] using hv.2), Ends.bind_iff, ends_getRow hrow,
    Ends.bind_iff]
  refine (ends_searches hm hc hrow hopen hforth hback).mono_ok ?_
  rintro _ t ⟨rfl, hrest⟩
  rw [if_neg (by simp), if_pos (by simpa using hordered), Ends.bind_iff]
  refine hrest.mono_ok ?_
  rintro _ t ⟨rfl, K, L, hK, hL, ⟨hsound, hsame⟩, hcross⟩
  obtain ⟨row', hrow', hactive, hopen', -⟩ := hcross.row
  rw [if_neg (by simp), Ends.bind_iff]
  rw [← hsame.stored] at hforth hback
  refine ((ends_insertInRow (E := fun _ _ => False) hsound hrow' hcross.has hv (fun _ => hback)
    hforth).and hcross.ends_insertInRow).mono (fun _ u hu => ?_) fun _ _ he => he.1
  rw [hback, zero_add, hactive] at hu
  refine ((((hu.1.symm (by simp)).exchanged.rebase hsame).ends_notes hu.2).mono_ok fun _ w hw => ?_)
  refine ⟨⟨_, _, hw.1, ?_, ?_⟩, K, L, hK, hL, hw.2⟩
  · simp only [Edit.columnSeat]
    split <;> simp
  · simp [Edit.rowSeat]

end Adding

/-! ## Deleting -/

/-- A coefficient was found in the column, or else in the row, and removed. -/
structure Withdrawn (m t : ConstraintMatrix) (c : ColumnRef) (r : RowRef) (row : Row) (a b : Bool)
    (K L : Keys) (inColumn : Bool) : Prop where
  exchanged : Exchanged m t c r 0 0
  keys : ∃ K' L',
    Keys.Searched (index r) (candidates b (m.column c).entries.nrUnlinked) K K' inColumn ∧
    (inColumn = true → L' = L) ∧
    (inColumn = false → Keys.Searched (index c) (candidates a row.entries.nrUnlinked) L L' true) ∧
    Crossing c r a b (K'.drop (index r)) (L'.drop (index c)) t

/-- What is stored decides where it is found. -/
theorem Located.isSome_iff {found : Option Nat × Option Nat} (h : Located m c r found)
    (hm : m.Sound) (horder : m.InOrder (.row r)) {inColumn : Bool}
    (hcolumn : m.grid.stored (.column c) (.row r) = 0 ↔ inColumn = false)
    (hrow : inColumn = false → m.grid.stored (.row r) (.column c) ≠ 0) :
    found.1.isSome = inColumn ∧ (inColumn = false → found.2.isSome = true) := by
  cases h with
  | inColumn he =>
    have hcolumn : inColumn = true := Bool.eq_true_of_not_eq_false fun hfalse =>
      stored_ne_zero (cell_of_column he) (hcolumn.mpr hfalse)
    exact ⟨hcolumn.symm, fun hfalse => by simp_all⟩
  | inRow hrow' he =>
    have hnone : m.grid.stored (.column c) (.row r) = 0 :=
      hm.tidy.oneSided (Grid.mem_stored_iff.mpr ⟨_, _, cell_of_row hrow' he, rfl, rfl, rfl⟩)
    exact ⟨(hcolumn.mp hnone).symm, fun _ => rfl⟩
  | nowhere hnone hnone' => exact absurd (hnone' horder) (hrow (hcolumn.mp hnone))

theorem Crossing.ends_delete (h : Crossing c r a b K L m) (hm : m.Sound)
    (hrow : m.row? r = some row) {inColumn : Bool}
    (hcolumn : m.grid.stored (.column c) (.row r) = 0 ↔ inColumn = false)
    (hstored : inColumn = false → m.grid.stored (.row r) (.column c) ≠ 0) :
    Ends (delete c r) m (fun _ t => Withdrawn m t c r row a b K L inColumn) fun _ _ => False := by
  obtain ⟨row', hrow', -, hopen, -⟩ := h.row
  obtain rfl : row = row' := Option.some.inj (hrow.symm.trans hrow')
  obtain ⟨hunlocked, hordered⟩ := Row.isOpen_iff.mp hopen
  rw [delete, Ends.bind_iff, ends_checkUnlocked hrow]
  refine ⟨fun hlocked => by simp_all, fun _ => ?_⟩
  rw [Ends.bind_iff]
  refine ((ConstraintMatrix.ends_locate (E := fun _ _ => False) hm h.has hrow).and
    (h.ends_locate (E := fun _ _ => False) hm hrow)).mono ?_ fun _ _ he => he.1
  rintro found t ⟨⟨⟨hsound, hsame⟩, hlocated⟩, K', L', hsearched, hsameRow, hsearched', hcross⟩
  obtain ⟨row', hrow', -, hdelayed', -⟩ := hsame.row_eq hrow
  rw [← hsame.stored] at hcolumn hstored
  obtain ⟨rfl, hfound⟩ := hlocated.isSome_iff hsound
    ((inOrder_row hrow').mpr (hdelayed'.trans hordered)) hcolumn hstored
  obtain ⟨p, q⟩ := found
  have hsome : (p.isNone && q.isNone) = false := by
    cases p with
    | some p => rfl
    | none =>
      obtain ⟨q, rfl⟩ := Option.isSome_iff_exists.mp (hfound rfl)
      rfl
  simp only [hsome]
  rw [if_neg (by simp), Ends.bind_iff]
  refine ((hlocated.ends_removeBoth (E := fun _ _ => False) hsound hsome).and
    (hcross.ends_removeBoth hsound hlocated hsome)).mono ?_ fun _ _ he => he.1
  rintro _ u ⟨⟨back, hupdated, hback⟩, hcross'⟩
  obtain rfl := hback ((inOrder_row hrow').mpr (hdelayed'.trans hordered))
  obtain ⟨row₂, hrow₂, -⟩ := hcross'.row
  refine ((remarked_announceChange hrow₂).and hcross'.ends_announceChange).mono (fun _ w hw => ?_)
    fun _ _ he => he.1
  refine ⟨(hupdated.exchanged.rebase hsame).remark hw.1, K', L', hsearched, hsameRow,
    fun hfalse => ?_, hw.2⟩
  have := hsearched' hfalse
  rwa [hfound hfalse] at this

/-! ## The round trip -/

/-- Both lists have the entries that they had before a coefficient was added and deleted. -/
structure Returned (m t : ConstraintMatrix) (c : ColumnRef) (r : RowRef) (row : Row) (e : Edit) :
    Prop where
  column : (m.column c).entries.RoundTrip (t.column c).entries
    (candidates row.isActive (m.column c).entries.nrUnlinked)
    (e.columnSeat (m.column c).isActive row.isActive) (index r)
  row : ∃ row', t.row? r = some row' ∧ row.entries.RoundTrip row'.entries
    (candidates (m.column c).isActive row.entries.nrUnlinked)
    (e.rowHole (m.column c).isActive row.isActive) (index c)

/-- A coefficient that an addition does not store in the column is stored in a row that is not
active. -/
theorem rowSeat_of_columnSeat (he : e = .addInColumn v ∨ e = .addInRow v)
    (hcolumn : e.columnSeat a b = none) : b = false ∧ (e.rowSeat a b).isSome = true := by
  rcases he with rfl | rfl
  · cases hcolumn
  · cases b with
    | false => exact ⟨rfl, rfl⟩
    | true => cases hcolumn

/-- Only the rest of a list is searched for a partner that is not active. -/
theorem candidates_inactive (n n' : Nat) : candidates false n ⊆ candidates false n' := by
  simp [candidates]

theorem active_mem_candidates {n n' : Nat} (h : .active ∈ candidates a n) :
    .active ∈ candidates a n' := by
  cases a <;> simp_all [candidates]

section Keys

variable {K₀ K' L₀ L' : Keys} {k n n' : Nat}

/-- The order of the column, where a deletion looks first. -/
theorem restored_column (he : e = .addInColumn v ∨ e = .addInRow v)
    (hK : Keys.Sifted (candidates b n) K₀ K) (hnew : ∀ part, k ∉ K₀ part)
    (hnodup : ∀ part, (K₀ part).Nodup) (hsearched : Keys.Searched k (candidates b n')
      (K.store k (e.columnSeat a b)) K' (e.columnSeat a b).isSome) :
    Keys.Restored (candidates b n) (e.columnSeat a b) k K₀ (K'.drop k) := by
  cases hseat : e.columnSeat a b with
  | none =>
    obtain ⟨rfl, -⟩ := rowSeat_of_columnSeat he hseat
    rw [hseat] at hsearched
    exact hK.restored_of_inVain hnew hsearched (candidates_inactive n' n)
  | some seat =>
    rw [hseat] at hsearched
    exact hK.restored_of_found hnew hnodup hsearched active_mem_candidates

/-- The order of the row, where a deletion looks if the column has no entry. -/
theorem restored_row (hL : Keys.Sifted (candidates a n) L₀ L) (hnew : ∀ part, k ∉ L₀ part)
    (hnodup : ∀ part, (L₀ part).Nodup)
    (hsame : (e.columnSeat a b).isSome = true → L' = L.store k (e.rowSeat a b))
    (hsearched : (e.columnSeat a b).isSome = false →
      Keys.Searched k (candidates a n') (L.store k (e.rowSeat a b)) L' true) :
    Keys.Restored (candidates a n) (e.rowHole a b) k L₀ (L'.drop k) := by
  cases hseat : (e.columnSeat a b).isSome with
  | true =>
    rw [Edit.rowHole, if_pos hseat]
    exact hL.restored_of_eq hnew (hsame hseat)
  | false =>
    rw [Edit.rowHole, if_neg (by simp [hseat])]
    exact hL.restored_of_found hnew hnodup (hsearched hseat) active_mem_candidates

end Keys

theorem storedWith_zero (hforth : m.grid.stored (.column c) (.row r) = 0)
    (hback : m.grid.stored (.row r) (.column c) = 0) :
    m.storedWith (.column c) (.row r) 0 0 = m.grid.stored := by
  funext x y
  rw [storedWith]
  split
  · next heq => rw [heq.1, heq.2, hforth]
  · split
    · next heq => rw [heq.1, heq.2, hback]
    · rfl

theorem Added.returned (hadded : Added m t c r row e) (hm : m.Sound) (hc : m.Has (.column c))
    (hrow : m.row? r = some row) (hopen : row.isOpen = true)
    (hforth : m.grid.stored (.column c) (.row r) = 0)
    (hback : m.grid.stored (.row r) (.column c) = 0)
    (he : e = .addInColumn v ∨ e = .addInRow v) :
    Ends (delete c r) t (fun _ u => Returned m u c r row e) fun _ _ => False := by
  obtain ⟨⟨forth, back, hexchanged, hforth', hback'⟩, K, L, hK, hL, hcross⟩ := hadded
  have hstart := hm.crossing hc hrow hopen
  obtain ⟨row₁, hrow₁, -⟩ := hcross.row
  have hcolumn : t.grid.stored (.column c) (.row r) = 0 ↔
      (e.columnSeat (m.column c).isActive row.isActive).isSome = false := by
    rw [hexchanged.stored, storedWith_forth, hforth']
    simp
  have hstored : (e.columnSeat (m.column c).isActive row.isActive).isSome = false →
      t.grid.stored (.row r) (.column c) ≠ 0 := by
    intro hnone
    rw [hexchanged.stored, storedWith_back (by simp), Ne, hback']
    have hseat := (rowSeat_of_columnSeat he (by simpa using hnone)).2
    intro hrowNone
    rw [hrowNone] at hseat
    cases hseat
  refine (hcross.ends_delete hexchanged.sound hrow₁ hcolumn hstored).mono_ok fun _ u hu => ?_
  obtain ⟨hexchanged', K', L', hsearched, hsameRow, hsearchedRow, hcross'⟩ := hu
  have htotal := hexchanged.trans hexchanged'
  have hsame : u.grid.stored = m.grid.stored := htotal.stored.trans (storedWith_zero hforth hback)
  obtain ⟨row₂, hrow₂, -, -, hkeyed⟩ := hcross'.row
  constructor
  · have hreordered := hm.reordered_column htotal.sound htotal.isActive hsame c
    refine hreordered.roundTrip ?_ (hm.counted (.column c)) (htotal.sound.counted (.column c))
      hstart.column.nrActive_le
    rw [hcross'.column.keys_eq]
    exact restored_column he hK (hstart.notMem_column hforth)
      (Keys.nodup_part (hstart.nodup_column hm)) hsearched
  · have hreordered := hm.reordered_row htotal.sound htotal.isActive hsame hrow hrow₂
    refine ⟨row₂, hrow₂, hreordered.roundTrip ?_ (hm.counted (.row r) row hrow)
      (htotal.sound.counted (.row r) row₂ hrow₂) (hm.wired.nrActive_le (shows_row hrow))⟩
    rw [hkeyed.keys_eq]
    exact restored_row hL (hstart.notMem_row hback) (Keys.nodup_part (hstart.nodup_row hm))
      hsameRow hsearchedRow

/-- A column, and a row that is neither locked nor delays its order, without a coefficient. -/
structure Vacant (m : ConstraintMatrix) (c : ColumnRef) (r : RowRef) (row : Row) : Prop where
  hasColumn : m.Has (.column c)
  hasRow : m.row? r = some row
  unlocked : row.isLocked = false
  ordered : row.delayed = false
  columnLacks : ∀ e ∈ (m.column c).entries.entries, e.partner ≠ r
  rowLacks : ∀ e ∈ row.entries.entries, e.partner ≠ c

theorem stored_eq_zero_of_lacks {x : Line} {κ : Type} {name : κ → Line} {l : Incidence κ}
    {partner : κ} (hs : m.grid.Shows x name l) (hlacks : ∀ e ∈ l.entries, e.partner ≠ partner) :
    m.grid.stored x (name partner) = 0 := by
  refine Multiset.eq_zero_of_forall_notMem fun ⟨w, linked⟩ hw => ?_
  obtain ⟨i, e, hcell, hpartner, -⟩ := Grid.mem_stored_iff.mp hw
  rw [hs.cell, Option.map_eq_some_iff] at hcell
  obtain ⟨e', he', rfl⟩ := hcell
  exact hlacks e' (Array.mem_of_getElem? he') (hs.injective hpartner)

/-- A coefficient that was added from either side and deleted leaves the lists as they were, but for
their order. -/
theorem Vacant.ends_roundTrip (h : m.Vacant c r row) (hm : m.Sound)
    (he : e = .addInColumn v ∨ e = .addInRow v) (hv : v.isFinite = true ∧ v ≠ 0) :
    Ends (edit c r e) m (fun _ t => (t.row? r).isSome = true ∧
      Ends (edit c r .delete) t
        (fun _ u => (u.row? r).isSome = true ∧ Returned m u c r row e) fun _ _ => False)
      fun _ _ => False := by
  have hopen : row.isOpen = true := Row.isOpen_iff.mpr ⟨h.unlocked, h.ordered⟩
  have hforth : m.grid.stored (.column c) (.row r) = 0 :=
    stored_eq_zero_of_lacks (m.shows_column c) h.columnLacks
  have hback : m.grid.stored (.row r) (.column c) = 0 :=
    stored_eq_zero_of_lacks (shows_row h.hasRow) h.rowLacks
  have hadded : Ends (edit c r e) m (fun _ t => Added m t c r row e) fun _ _ => False := by
    rcases he with rfl | rfl
    · exact ends_addInColumn_added hm h.hasColumn h.hasRow hopen hforth hback hv
    · exact ends_addInRow_added hm h.hasColumn h.hasRow hopen hforth hback hv
  refine hadded.mono_ok fun _ t ht => ⟨?_, ?_⟩
  · obtain ⟨K, L, -, -, hcross⟩ := ht.keys
    obtain ⟨row', hrow', -⟩ := hcross.row
    rw [hrow']
    rfl
  · refine Ends.mono_ok (ht.returned hm h.hasColumn h.hasRow hopen hforth hback he)
      fun _ u hu => ⟨?_, hu⟩
    obtain ⟨row', hrow', -⟩ := hu.row
    rw [hrow']
    rfl

end ConstraintMatrix

end CertifiedLp
