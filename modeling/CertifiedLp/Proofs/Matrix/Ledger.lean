import Mathlib
import CertifiedLp.Proofs.Extended
import CertifiedLp.Proofs.Matrix.Freeing
import CertifiedLp.Proofs.Matrix.Storing

/-!
# Ledgers

The coefficients of a matrix as a map from columns and rows to numbers, and what an edit of a single
coefficient means for such a map. A matrix is *revised* when its coefficients changed, and nothing
that places its lines in the active linear program or in the solver.
-/

namespace CertifiedLp

/-- The value of each coefficient. -/
abbrev Ledger := ColumnRef → RowRef → Rat

namespace Ledger

variable {L L' : Ledger} {locked : Bool} {c : ColumnRef} {r : RowRef} {v : Extended} {q : Rat}

/-- Replace the value of a coefficient. -/
def set (L : Ledger) (c : ColumnRef) (r : RowRef) (q : Rat) : Ledger := fun d s =>
  if d = c ∧ s = r then q else L d s

@[simp] theorem set_apply_self : L.set c r q c r = q := if_pos ⟨rfl, rfl⟩

theorem set_apply_of_ne {d : ColumnRef} {s : RowRef} (h : ¬ (d = c ∧ s = r)) :
    L.set c r q d s = L d s := if_neg h

@[simp] theorem set_self : L.set c r (L c r) = L := by
  funext d s
  by_cases h : d = c ∧ s = r
  · rw [h.1, h.2, set_apply_self]
  · rw [set_apply_of_ne h]

@[simp] theorem set_set (p : Rat) : (L.set c r p).set c r q = L.set c r q := by
  funext d s
  by_cases h : d = c ∧ s = r
  · rw [h.1, h.2, set_apply_self, set_apply_self]
  · rw [set_apply_of_ne h, set_apply_of_ne h, set_apply_of_ne h]

/-- Store a value that does not exist. Nothing is stored for zero. -/
def add? (L : Ledger) (locked : Bool) (c : ColumnRef) (r : RowRef) (v : Extended) :
    Option Ledger :=
  if locked then none
  else if v.isZero then some L
  else if L c r ≠ 0 then none
  else v.finite?.map (L.set c r)

/-- Overwrite a value. -/
def change? (L : Ledger) (locked : Bool) (c : ColumnRef) (r : RowRef) (v : Extended) :
    Option Ledger :=
  if locked then none else v.finite?.map (L.set c r)

/-- Add to a value. -/
def increase? (L : Ledger) (locked : Bool) (c : ColumnRef) (r : RowRef) (v : Extended) :
    Option Ledger :=
  if locked then none else v.finite?.map fun q => L.set c r (L c r + q)

/-- Remove a value that exists. -/
def delete? (L : Ledger) (locked : Bool) (c : ColumnRef) (r : RowRef) : Option Ledger :=
  if locked || L c r = 0 then none else some (L.set c r 0)

/-- A value that was stored may as well have been added. -/
theorem eq_of_add?_eq_some (h : L.add? locked c r v = some L') :
    L' = L.set c r (L c r + v.rational) := by
  rw [add?] at h
  split at h
  · cases h
  split at h
  · next hzero =>
    have hv : v = 0 := by simpa [Extended.isZero] using hzero
    rw [← Option.some.inj h, hv, Extended.zero_def, Extended.rational_finite, add_zero, set_self]
  split at h
  · cases h
  · next hnone =>
    obtain ⟨q, hq, rfl⟩ := Option.map_eq_some_iff.mp h
    rw [Extended.finite?_eq_some] at hq
    rw [not_ne_iff.mp hnone, zero_add, hq, Extended.rational_finite]

theorem eq_of_change?_eq_some (h : L.change? locked c r v = some L') :
    L' = L.set c r v.rational := by
  rw [change?] at h
  split at h
  · cases h
  · obtain ⟨q, hq, rfl⟩ := Option.map_eq_some_iff.mp h
    rw [Extended.finite?_eq_some] at hq
    rw [hq, Extended.rational_finite]

theorem eq_of_increase?_eq_some (h : L.increase? locked c r v = some L') :
    L' = L.set c r (L c r + v.rational) := by
  rw [increase?] at h
  split at h
  · cases h
  · obtain ⟨q, hq, rfl⟩ := Option.map_eq_some_iff.mp h
    rw [Extended.finite?_eq_some] at hq
    rw [hq, Extended.rational_finite]

end Ledger

namespace ConstraintMatrix

variable {m m' t : ConstraintMatrix} {c : ColumnRef} {r : RowRef} {row : Row} {x y : Line}
variable {v : Extended} {forth back : Multiset (Extended × Bool)} {L L' : Ledger}

/-! ## The ledger of a matrix -/

theorem SameContent.content (h : m.SameContent m') : m'.content = m.content := by
  funext c r
  rw [ConstraintMatrix.content, ConstraintMatrix.content, h.stored]

/-- An entry of a column is all that is stored of the coefficient. -/
theorem Sound.content_of_column (hm : m.Sound) (hr : m.InOrder (.row r)) {p : Nat} {v : Extended}
    {link : Option Nat} (he : (m.column c).entries.entries[p]? = some ⟨r, v, link⟩) :
    m.content c r = {v} := by
  have hcell : m.grid.cell (.column c) p = some ⟨.row r, v, link⟩ := cell_of_column he
  have hmem : (v, link.isSome) ∈ m.grid.stored (.column c) (.row r) :=
    Grid.mem_stored_iff.mpr ⟨p, _, hcell, rfl, rfl, rfl⟩
  have hforth : m.grid.stored (.column c) (.row r) = {(v, link.isSome)} :=
    hm.tidy.stored_eq_singleton (x := .column c) trivial hmem
  rw [content, hforth]
  cases link with
  | none =>
    rw [hm.tidy.oneSided hmem]
    rfl
  | some k =>
    have hback : (v, true) ∈ m.grid.stored (.row r) (.column c) :=
      Grid.mem_stored_iff.mpr ⟨k, _, hm.wired.mirrored.back hcell, rfl, rfl, rfl⟩
    rw [hm.tidy.stored_eq_singleton hr hback]
    rfl

/-- An entry of a row without a link is all that is stored of the coefficient. -/
theorem Sound.content_of_row (hm : m.Sound) (hr : m.InOrder (.row r)) (hrow : m.row? r = some row)
    {q : Nat} {v : Extended} (he : row.entries.entries[q]? = some ⟨c, v, none⟩) :
    m.content c r = {v} := by
  have hcell : m.grid.cell (.row r) q = some ⟨.column c, v, none⟩ := cell_of_row hrow he
  have hmem : (v, false) ∈ m.grid.stored (.row r) (.column c) :=
    Grid.mem_stored_iff.mpr ⟨q, _, hcell, rfl, rfl, rfl⟩
  rw [content, hm.tidy.oneSided hmem, hm.tidy.stored_eq_singleton hr hmem]
  rfl

/-- The value of a coefficient, which is zero if it is not stored. While a row delays its order, this
is the sum of the values that it has for the column. -/
def amount (m : ConstraintMatrix) : Ledger := fun c r => ((m.content c r).map Extended.rational).sum

theorem SameContent.amount (h : m.SameContent m') : m'.amount = m.amount := by
  funext c r
  rw [ConstraintMatrix.amount, ConstraintMatrix.amount, h.content]

theorem SameContent.linked (h : m.SameContent m') : m'.linked = m.linked := by
  funext c r
  rw [ConstraintMatrix.linked, ConstraintMatrix.linked, h.stored]

theorem amount_of_content {v : Extended} (h : m.content c r = {v}) : m.amount c r = v.rational := by
  rw [amount, h, Multiset.map_singleton, Multiset.sum_singleton]

theorem amount_of_stored (hforth : m.grid.stored (.column c) (.row r) = 0)
    (hback : m.grid.stored (.row r) (.column c) = 0) : m.amount c r = 0 := by
  rw [amount, content, hforth, hback]
  rfl

/-! ## Places -/

/-- Where the lines are, in the active linear program and in the solver. -/
def layout (m : ConstraintMatrix) : ConstraintMatrix :=
  { m.without .allButPlaces with firstChangedColumn := 0, firstChangedRow := 0, synced := true }

/-- All lines are where they were, and the solver may know less of them. -/
structure Stays (m m' : ConstraintMatrix) : Prop where
  layout : m'.layout = m.layout
  firstChangedColumn : m'.firstChangedColumn ≤ m.firstChangedColumn
  firstChangedRow : m'.firstChangedRow ≤ m.firstChangedRow

namespace Stays

theorem refl (m : ConstraintMatrix) : m.Stays m := ⟨rfl, Nat.le_refl _, Nat.le_refl _⟩

theorem trans (h : m.Stays t) (h' : t.Stays m') : m.Stays m' where
  layout := h'.layout.trans h.layout
  firstChangedColumn := Nat.le_trans h'.firstChangedColumn h.firstChangedColumn
  firstChangedRow := Nat.le_trans h'.firstChangedRow h.firstChangedRow

theorem of_without {f : Forgetting}
    (hcolumn : ∀ c, Forgetting.allButPlaces.column (f.column c) = Forgetting.allButPlaces.column c)
    (hrow : ∀ r, Forgetting.allButPlaces.row (f.row r) = Forgetting.allButPlaces.row r)
    (h : m'.without f = m.without f) : m.Stays m' where
  layout := by
    rw [ConstraintMatrix.layout, without_eq_of_without hcolumn hrow h, ConstraintMatrix.layout]
  firstChangedColumn := Nat.le_of_eq (congrArg (·.firstChangedColumn) h)
  firstChangedRow := Nat.le_of_eq (congrArg (·.firstChangedRow) h)

/-- Nothing moves when entries change. -/
theorem of_entries (h : m'.without .entries = m.without .entries) : m.Stays m' :=
  of_without (fun _ => rfl) (fun _ => rfl) h

theorem modifyColumn (m : ConstraintMatrix) (c : ColumnRef) {g : Column → Column}
    (h : ∀ column, Forgetting.allButPlaces.column (g column) =
      Forgetting.allButPlaces.column column) : m.Stays (m.modifyColumn c g) where
  layout := by
    rw [ConstraintMatrix.layout, without_modifyColumn m c h]
    rfl
  firstChangedColumn := Nat.le_refl _
  firstChangedRow := Nat.le_refl _

theorem modifyRow (m : ConstraintMatrix) (r : RowRef) {g : Row → Row}
    (h : ∀ row, Forgetting.allButPlaces.row (g row) = Forgetting.allButPlaces.row row) :
    m.Stays (m.modifyRow r g) where
  layout := by
    rw [ConstraintMatrix.layout, without_modifyRow m r h]
    rfl
  firstChangedColumn := Nat.le_refl _
  firstChangedRow := Nat.le_refl _

section Congr

variable (h : m.Stays m')

include h

theorem columns_eq : (m'.without .allButPlaces).columns = (m.without .allButPlaces).columns :=
  congrArg (·.columns) h.layout

theorem rows_eq : (m'.without .allButPlaces).rows = (m.without .allButPlaces).rows :=
  congrArg (·.rows) h.layout

theorem size_columns : m'.columns.size = m.columns.size := by
  simpa [without] using congrArg Array.size h.columns_eq

theorem size_rows : m'.rows.size = m.rows.size := by
  simpa [without] using congrArg Array.size h.rows_eq

theorem solverColumns : m'.solverColumns = m.solverColumns := congrArg (·.solverColumns) h.layout

theorem solverRows : m'.solverRows = m.solverRows := congrArg (·.solverRows) h.layout

/-- What depends on the place of a column only is the same. -/
theorem column_congr {β : Type} (g : Column → β) (c : ColumnRef)
    (hg : ∀ column, g (Forgetting.allButPlaces.column column) = g column) :
    g (m'.column c) = g (m.column c) := by
  refine Forgetting.column_congr g ?_ hg
  rw [← column_without, ← column_without, column, column, h.columns_eq]

/-- What depends on the place and the uses of a row only is the same. -/
theorem row?_congr {β : Type} (g : Row → β) (r : RowRef)
    (hg : ∀ row, g (Forgetting.allButPlaces.row row) = g row) :
    (m'.row? r).map g = (m.row? r).map g := by
  have hrow : (m'.row? r).map Forgetting.allButPlaces.row =
      (m.row? r).map Forgetting.allButPlaces.row := by
    rw [← row?_without, ← row?_without, row?, row?, h.rows_eq]
  have hmap := congrArg (Option.map g) hrow
  rwa [Option.map_map, Option.map_map, show g ∘ Forgetting.allButPlaces.row = g from funext hg]
    at hmap

theorem isSome_row? (r : RowRef) : (m'.row? r).isSome = (m.row? r).isSome := by
  have hmap := congrArg Option.isSome (h.row?_congr (fun _ => ()) r fun _ => rfl)
  rwa [Option.isSome_map, Option.isSome_map] at hmap

theorem exists_row (hrow : m.row? r = some row) : ∃ row', m'.row? r = some row' := by
  rw [← Option.isSome_iff_exists, h.isSome_row?, hrow, Option.isSome_some]

end Congr

end Stays

/-! ## Revisions -/

/-- The coefficients changed to those of a ledger, and no line was moved. Where the ledger is the
same, no part of a coefficient became known to another line or was forgotten. -/
structure Revised (m m' : ConstraintMatrix) (L : Ledger) : Prop where
  sound : m'.Sound
  stays : m.Stays m'
  amount : m'.amount = L
  linked : ∀ {c r}, L c r = m.amount c r → m'.linked c r = m.linked c r

theorem Sound.revised (hm : m.Sound) : Revised m m m.amount := ⟨hm, .refl m, rfl, fun _ => rfl⟩

/-- What is revised after a search, is revised altogether. -/
theorem SameContent.rebase (h : m.SameContent t) (h' : Revised t m' L) : Revised m m' L where
  sound := h'.sound
  stays := (Stays.of_entries h.without).trans h'.stays
  amount := h'.amount
  linked hL := by
    rw [h'.linked (by rw [h.amount, hL]), h.linked]

/-- A change that the shape of the matrix does not show revises no coefficient. -/
theorem Revised.reshape (h : Revised m t L) (hshape : m'.shape = t.shape) (hstays : t.Stays m') :
    Revised m m' L where
  sound := h.sound.congr hshape
  stays := h.stays.trans hstays
  amount := by
    rw [← h.amount]
    funext c r
    rw [ConstraintMatrix.amount, ConstraintMatrix.amount, ConstraintMatrix.content,
      ConstraintMatrix.content, grid_eq_of_shape hshape]
  linked hL := by
    rw [← h.linked hL, ConstraintMatrix.linked, ConstraintMatrix.linked, grid_eq_of_shape hshape]

theorem SameContent.revised (h : m.SameContent m') (hm : m'.Sound) : Revised m m' m.amount :=
  ⟨hm, .of_entries h.without, h.amount, fun _ => by rw [h.linked]⟩

theorem Links.amount (h : m.Links x m') : m'.amount = m.amount := by
  funext c r
  rw [ConstraintMatrix.amount, ConstraintMatrix.amount, h.content]

/-- The value of a coefficient, from what its two lines store. -/
def total (forth back : Multiset (Extended × Bool)) : Rat :=
  ((forth.map (·.1) + (back.filter (·.2 = false)).map (·.1)).map Extended.rational).sum

theorem amount_eq_total (m : ConstraintMatrix) (c : ColumnRef) (r : RowRef) : m.amount c r =
    total (m.grid.stored (.column c) (.row r)) (m.grid.stored (.row r) (.column c)) := rfl

theorem total_add (forth forth' back back' : Multiset (Extended × Bool)) :
    total (forth + forth') (back + back') = total forth back + total forth' back' := by
  simp only [total, Multiset.filter_add, Multiset.map_add, Multiset.sum_add]
  ring

/-- A coefficient counts once, whether its other line has it as well or not. -/
theorem total_singleton (v : Extended) (b : Bool) :
    total {(v, b)} (if b then {(v, true)} else 0) = v.rational := by
  cases b <;> simp [total, Multiset.filter_singleton]

theorem total_singleton_back (v : Extended) (b : Bool) :
    total (if b then {(v, true)} else 0) {(v, b)} = v.rational := by
  cases b <;> simp [total, Multiset.filter_singleton]

theorem linkedTotal_singleton (v : Extended) (b : Bool) :
    linkedTotal {(v, b)} = if b then v.rational else 0 := by
  cases b <;> simp [linkedTotal, Multiset.filter_singleton]

/-- The coefficient of two lines changes with what these store for each other. -/
theorem Updated.revised (h : Updated m m' (.column c) (.row r) forth back)
    (hlinked : total forth back = m.amount c r → linkedTotal forth = m.linked c r) :
    Revised m m' (m.amount.set c r (total forth back)) where
  sound := h.sound
  stays := .of_entries h.without
  amount := by
    funext d s
    rw [amount_eq_total, h.stored]
    by_cases hds : d = c ∧ s = r
    · obtain ⟨rfl, rfl⟩ := hds
      rw [storedWith_forth, storedWith_back (by simp), Ledger.set_apply_self]
    · rw [storedWith_of_ne (by simpa using hds) (by simp), storedWith_of_ne (by simp)
        (by simpa [and_comm] using hds), Ledger.set_apply_of_ne hds]
      rfl
  linked {d s} hL := by
    rw [ConstraintMatrix.linked, h.stored]
    by_cases hds : d = c ∧ s = r
    · obtain ⟨rfl, rfl⟩ := hds
      rw [Ledger.set_apply_self] at hL
      rw [storedWith_forth, hlinked hL]
    · rw [storedWith_of_ne (by simpa using hds) (by simp)]
      rfl

/-- No coefficient but one changed, and as much of the others is known to both of their lines. -/
def Spares (m m' : ConstraintMatrix) (c : ColumnRef) (r : RowRef) : Prop :=
  ∀ d s, ¬ (d = c ∧ s = r) → m'.amount d s = m.amount d s ∧ m'.linked d s = m.linked d s

theorem Spares.trans (h : Spares m t c r) (h' : Spares t m' c r) : Spares m m' c r :=
  fun d s hds => ⟨(h' d s hds).1.trans (h d s hds).1, (h' d s hds).2.trans (h d s hds).2⟩

theorem SameContent.spares (h : m.SameContent m') : Spares m m' c r :=
  fun _ _ _ => ⟨by rw [h.amount], by rw [h.linked]⟩

theorem Revised.spares {a : Rat} (h : Revised m m' (m.amount.set c r a)) : Spares m m' c r :=
  fun _ _ hds => ⟨by rw [h.amount, Ledger.set_apply_of_ne hds], h.linked (Ledger.set_apply_of_ne hds)⟩

theorem Revised.spares_all (h : Revised m m' m.amount) : Spares m m' c r :=
  fun _ _ _ => ⟨by rw [h.amount], h.linked rfl⟩

theorem Updated.spares (h : Updated m m' (.column c) (.row r) forth back) : Spares m m' c r := by
  intro d s hds
  have hforth : m'.grid.stored (.column d) (.row s) = m.grid.stored (.column d) (.row s) := by
    rw [h.stored, storedWith_of_ne (by simpa using hds) (by simp)]
  have hback : m'.grid.stored (.row s) (.column d) = m.grid.stored (.row s) (.column d) := by
    rw [h.stored, storedWith_of_ne (by simp) (by simpa [and_comm] using hds)]
  exact ⟨by rw [amount_eq_total, amount_eq_total, hforth, hback], by
    rw [ConstraintMatrix.linked, ConstraintMatrix.linked, hforth]⟩

theorem Freed.amount (h : Freed m m' r) (c : ColumnRef) (s : RowRef) :
    m'.amount c s = if s = r then 0 else m.amount c s := by
  rw [amount_eq_total, h.stored, h.stored]
  by_cases hs : s = r
  · rw [if_pos (.inr (by rw [hs])), if_pos (.inl (by rw [hs])), if_pos hs]
    rfl
  · rw [if_neg (by simpa using hs), if_neg (by simpa using hs), if_neg hs]
    rfl

theorem Freed.linked (h : Freed m m' r) {s : RowRef} (hs : s ≠ r) (c : ColumnRef) :
    m'.linked c s = m.linked c s := by
  rw [ConstraintMatrix.linked, h.stored, if_neg (by simpa using hs)]
  rfl

end ConstraintMatrix

end CertifiedLp
