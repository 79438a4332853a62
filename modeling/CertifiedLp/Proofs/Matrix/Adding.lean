import Mathlib
import CertifiedLp.Proofs.Matrix.Keeping
import CertifiedLp.Proofs.Matrix.Revaluing
import CertifiedLp.Proofs.Matrix.Searching

/-!
# Adding to coefficients

What is common to all edits of a coefficient, and the edits that add a value: what is checked before
and remarked afterwards. A value that is added to a row in order is refused if and only if the ledger
of the matrix refuses it. In a row that delays its order the values are added up, and only those in
the column stand in the way of another one.
-/

namespace CertifiedLp

namespace ConstraintMatrix

variable {m m' t : ConstraintMatrix} {c : ColumnRef} {r : RowRef} {row : Row} {v : Extended}
variable {L : Ledger} {E : LpError → ConstraintMatrix → Prop}

/-! ## After an edit -/

/-- Something else than the coefficients changed. -/
structure Remarked (m m' : ConstraintMatrix) : Prop where
  shape : m'.shape = m.shape
  stays : m.Stays m'

theorem Remarked.trans (h : Remarked m t) (h' : Remarked t m') : Remarked m m' :=
  ⟨h'.shape.trans h.shape, h.stays.trans h'.stays⟩

theorem Remarked.modifyRow (m : ConstraintMatrix) (r : RowRef) {g : Row → Row}
    (hshape : ∀ row, Forgetting.details.row (g row) = Forgetting.details.row row)
    (hplace : ∀ row, Forgetting.allButPlaces.row (g row) = Forgetting.allButPlaces.row row) :
    Remarked m (m.modifyRow r g) :=
  ⟨shape_modifyRow m r hshape, .modifyRow m r hplace⟩

theorem Remarked.modifyColumn (m : ConstraintMatrix) (c : ColumnRef) {g : Column → Column}
    (hshape : ∀ column, Forgetting.details.column (g column) = Forgetting.details.column column)
    (hplace : ∀ column,
      Forgetting.allButPlaces.column (g column) = Forgetting.allButPlaces.column column) :
    Remarked m (m.modifyColumn c g) :=
  ⟨shape_modifyColumn m c hshape, .modifyColumn m c hplace⟩

theorem Revised.remark (h : Revised m t L) (h' : Remarked t m') : Revised m m' L :=
  h.reshape h'.shape h'.stays

theorem Remarked.spares (h : Remarked m m') : Spares m m' c r := fun _ _ _ => ⟨by
    rw [amount_eq_total, amount_eq_total, grid_eq_of_shape h.shape], by
    rw [ConstraintMatrix.linked, ConstraintMatrix.linked, grid_eq_of_shape h.shape]⟩

theorem ends_noteIntegrality (hrow : m.row? r = some row) :
    Ends (noteIntegrality c r v) m (fun _ m' => Remarked m m') E := by
  simp only [noteIntegrality, Ends.bind_iff, ends_getColumn, ends_updateRow hrow]
  exact .modifyRow m r (fun _ => rfl) fun _ => rfl

theorem remarked_announceChange (hrow : m.row? r = some row) :
    Ends (announceChange c r) m (fun _ m' => Remarked m m') E := by
  have hfirst : Remarked m (m.modifyRow r Row.expireActivity) :=
    .modifyRow m r (fun _ => rfl) fun _ => rfl
  have hrow' : (m.modifyRow r Row.expireActivity).row? r = some row.expireActivity := by
    rw [row?_modifyRow, if_pos rfl, hrow, Option.map_some]
  simp only [announceChange, Ends.bind_iff, ends_updateRow hrow, Ends.get_iff, ends_getRow hrow']
  split
  · rw [Ends.ite_iff]
    constructor
    · intro _
      simp only [Ends.bind_iff, ends_updateRow hrow', Ends.modify_iff]
      refine hfirst.trans (Remarked.trans
        (.modifyRow _ r (g := ({ · with coefficientChanged := true })) (fun _ => rfl) fun _ => rfl)
        ⟨rfl, rfl, Nat.le_refl _, Nat.min_le_left _ _⟩)
    · intro _
      simp only [Ends.bind_iff, ends_updateColumn, Ends.modify_iff]
      refine hfirst.trans (Remarked.trans
        (.modifyColumn _ c (g := ({ · with coefficientChanged := true })) (fun _ => rfl)
          fun _ => rfl)
        ⟨rfl, rfl, Nat.min_le_left _ _, Nat.le_refl _⟩)
  · exact hfirst.trans ⟨rfl, rfl, Nat.le_refl _, Nat.le_refl _⟩

/-- The coefficients changed to those of a ledger, and the solver will be told those that changed. -/
structure Reported (m m' : ConstraintMatrix) (L : Ledger) : Prop extends Revised m m' L where
  announced : ∀ {c r}, L c r ≠ m.amount c r → m'.Announced c r

/-- There is nothing to report if no coefficient changed. -/
theorem Revised.reported (h : Revised m m' m.amount) : Reported m m' m.amount :=
  ⟨h, fun hL => (hL rfl).elim⟩

theorem Sound.reported (hm : m.Sound) : Reported m m m.amount := hm.revised.reported

theorem SameContent.reported (h : m.SameContent m') (hm : m'.Sound) : Reported m m' m.amount :=
  (h.revised hm).reported

theorem SameContent.rebase_reported (h : m.SameContent t) (h' : Reported t m' L) :
    Reported m m' L :=
  ⟨h.rebase h'.toRevised, fun hL => h'.announced (h.amount ▸ hL)⟩

/-- A coefficient that was changed is announced. -/
theorem Revised.ends_announceChange {a : Rat} (h : Revised m t (m.amount.set c r a))
    (hrow : (m.row? r).isSome = true) :
    Ends (announceChange c r) t (fun _ u => Reported m u (m.amount.set c r a) ∧ u.Announced c r)
      E := by
  obtain ⟨row, hrow⟩ := Option.isSome_iff_exists.mp ((h.stays.isSome_row? r).trans hrow)
  have hremarked : Ends (announceChange c r) t (fun _ u => Remarked t u) fun _ _ => False :=
    remarked_announceChange hrow
  refine (hremarked.and (ends_announceChange_announced c r t)).mono (fun _ u hu => ?_)
    fun _ _ hu => hu.1.elim
  refine ⟨⟨h.remark hu.1, fun {d s} hL => ?_⟩, hu.2⟩
  by_cases hds : d = c ∧ s = r
  · obtain ⟨rfl, rfl⟩ := hds
    exact hu.2
  · exact (hL (Ledger.set_apply_of_ne hds)).elim

/-- After a coefficient was stored, only remarks are left. -/
theorem Revised.ends_remarks {a : Rat} (h : Revised m t (m.amount.set c r a))
    (hrow : (m.row? r).isSome = true) :
    Ends (do noteIntegrality c r v; announceChange c r) t
      (fun _ u => Reported m u (m.amount.set c r a)) E := by
  obtain ⟨row₁, hrow₁⟩ := Option.isSome_iff_exists.mp ((h.stays.isSome_row? r).trans hrow)
  rw [Ends.bind_iff]
  refine (ends_noteIntegrality hrow₁).mono_ok fun _ u hu => ?_
  exact ((h.remark hu).ends_announceChange hrow).mono_ok fun _ _ hu' => hu'.1

theorem ends_remarks {x : MatrixM Unit} {a : Rat} (hrow : (m.row? r).isSome = true)
    (hx : Ends x t (fun _ u => Revised m u (m.amount.set c r a)) E) :
    Ends (do x; noteIntegrality c r v; announceChange c r) t
      (fun _ u => Reported m u (m.amount.set c r a)) E := by
  rw [Ends.bind_iff]
  exact hx.mono_ok fun _ _ hu => hu.ends_remarks hrow

/-! ## Conditions -/

theorem ends_checkUnlocked (hrow : m.row? r = some row) {Q : Unit → ConstraintMatrix → Prop} :
    Ends (checkUnlocked r) m Q E ↔ (row.isLocked = true → E (.misuse (.rowLocked r)) m) ∧
      (row.isLocked = false → Q () m) := by
  simp only [checkUnlocked, Ends.bind_iff, ends_getRow hrow]
  cases row.isLocked <;> simp

theorem ends_checkOrdered (hrow : m.row? r = some row) {Q : Unit → ConstraintMatrix → Prop} :
    Ends (checkOrdered r) m Q E ↔ (row.delayed = true → E (.misuse (.rowUnordered r)) m) ∧
      (row.delayed = false → Q () m) := by
  simp only [checkOrdered, Ends.bind_iff, ends_getRow hrow]
  cases row.delayed <;> simp

theorem inOrder_row (hrow : m.row? r = some row) : m.InOrder (.row r) ↔ row.delayed = false := by
  simp [InOrder, hrow]

/-! ## What is stored already -/

theorem rational_ne_zero (hv : v.isFinite = true ∧ v ≠ 0) : v.rational ≠ 0 := by
  intro hzero
  refine hv.2 ?_
  rw [← Extended.finite_rational hv.1, hzero, Extended.zero_def]

theorem Sound.amount_ne_zero_of_column (hm : m.Sound) (hr : m.InOrder (.row r)) {p : Nat}
    (h : ColumnHas c r p m) : m.amount c r ≠ 0 := by
  obtain ⟨w, link, he⟩ := h
  rw [amount_of_content (hm.content_of_column hr he)]
  exact rational_ne_zero (hm.tidy.value_of_cell (cell_of_column he))

theorem Sound.amount_ne_zero_of_row (hm : m.Sound) (hr : m.InOrder (.row r)) {q : Nat}
    (h : RowHas r c q m) (hcolumn : m.grid.stored (.column c) (.row r) = 0) :
    m.amount c r ≠ 0 := by
  obtain ⟨row, w, link, hrow, he⟩ := h
  obtain rfl := hm.link_eq_none hrow he hcolumn
  rw [amount_of_content (hm.content_of_row hr hrow he)]
  exact rational_ne_zero (hm.tidy.value_of_cell (cell_of_row hrow he))

/-- A value that cannot be stored is refused before anything changes. -/
theorem ends_checkStorable_infinite (hv : v.isInfinite = true)
    {Q : Unit → ConstraintMatrix → Prop} :
    Ends (checkStorable v) m Q E ↔ E (.misuse (.notStorable v)) m := by
  rw [checkStorable, if_pos (by simp [hv])]
  exact Ends.throw_iff

/-! ## Adding -/

/-- A value is added up to a coefficient or refused, the latter in a row in order exactly when the
ledger refuses it. -/
def Adds (x : MatrixM Unit) (m : ConstraintMatrix) (c : ColumnRef) (r : RowRef) (v : Extended)
    (outcome : Option Ledger) : Prop :=
  Ends x m
    (fun _ m' => Reported m m' (m.amount.set c r (m.amount c r + v.rational)) ∧
      (m.InOrder (.row r) → outcome.isSome = true))
    fun _ m' => Reported m m' m.amount ∧ (m.InOrder (.row r) → outcome = none)

/-- A coefficient that exists cannot be added again. -/
theorem add?_eq_none (hunlocked : row.isLocked = false) (hzero : v.isZero = false)
    (h : m.amount c r ≠ 0) : m.amount.add? row.isLocked c r v = none := by
  simp [Ledger.add?, hunlocked, hzero, h]

theorem add?_of_isZero (hunlocked : row.isLocked = false) (hzero : v.isZero = true) :
    m.amount.set c r (m.amount c r + v.rational) = m.amount ∧
      (m.amount.add? row.isLocked c r v).isSome = true := by
  have hv : v = 0 := by simpa [Extended.isZero] using hzero
  refine ⟨?_, by simp [Ledger.add?, hunlocked, hzero]⟩
  rw [hv, Extended.zero_def, Extended.rational_finite, add_zero, Ledger.set_self]

theorem add?_isSome (hunlocked : row.isLocked = false) (h : m.amount c r = 0)
    (hv : v.isFinite = true) : (m.amount.add? row.isLocked c r v).isSome = true := by
  obtain ⟨q, rfl⟩ := Extended.isFinite_iff.mp hv
  rw [Ledger.add?, hunlocked, if_neg (by simp)]
  split <;> simp [h]

theorem add?_infinite (hinfinite : v.isFinite = false) (h : m.amount c r = 0) :
    m.amount.add? row.isLocked c r v = none := by
  have hnone : v.finite? = none := by simpa [Extended.isFinite] using hinfinite
  have hzero : v.isZero = false := by
    cases v <;> simp_all [Extended.finite?, Extended.isZero, Extended.zero_def]
  simp [Ledger.add?, hnone, hzero, h]

/-- What is added after a search is added. -/
theorem Adds.rebase {x : MatrixM Unit} {locked : Bool} (hsame : m.SameContent t)
    (h : Adds x t c r v (t.amount.add? locked c r v)) :
    Ends x t (fun _ m' => Reported m m' (m.amount.set c r (m.amount c r + v.rational)) ∧
        (m.InOrder (.row r) → (m.amount.add? locked c r v).isSome = true))
      fun _ m' => Reported m m' m.amount ∧
        (m.InOrder (.row r) → m.amount.add? locked c r v = none) := by
  rw [Adds, hsame.amount] at h
  have horder (h : m.InOrder (.row r)) : t.InOrder (.row r) :=
    (inOrder_congr hsame.without _).mpr h
  exact h.mono (fun _ _ hu => ⟨hsame.rebase_reported hu.1, fun hr => hu.2 (horder hr)⟩)
    fun _ _ hu => ⟨hsame.rebase_reported hu.1, fun hr => hu.2 (horder hr)⟩

/-- A coefficient that nothing is stored of is stored in its column. -/
theorem adds_insertInColumn (hm : m.Sound) (hc : m.Has (.column c)) (hrow : m.row? r = some row)
    (hunlocked : row.isLocked = false) (hzero : v.isZero = false)
    (hforth : m.grid.stored (.column c) (.row r) = 0)
    (hback : m.grid.stored (.row r) (.column c) = 0) :
    Adds (do insertInColumn c r v; noteIntegrality c r v; announceChange c r) m c r v
      (m.amount.add? row.isLocked c r v) := by
  have hamount : m.amount c r = 0 := amount_of_stored hforth hback
  cases hfinite : v.isFinite with
  | true =>
    have hv : v.isFinite = true ∧ v ≠ 0 := ⟨hfinite, by simpa [Extended.isZero] using hzero⟩
    refine (ends_remarks (a := m.amount c r + v.rational) (by rw [hrow]; rfl)
      ((ends_insertInColumn hm hc hrow hv hforth hback).mono_ok fun _ u hu => ?_)).mono_ok
      fun _ u hu => ⟨hu, fun _ => add?_isSome hunlocked hamount hfinite⟩
    have hrevised := hu.revised fun htotal => by
      rw [total_singleton, hamount] at htotal
      exact (rational_ne_zero hv htotal).elim
    rwa [total_singleton, ← zero_add v.rational, ← hamount] at hrevised
  | false =>
    rw [Adds, insertInColumn, Ends.bind_iff, Ends.bind_iff,
      ends_checkStorable_infinite (by simpa using hfinite)]
    exact ⟨hm.reported, fun _ => add?_infinite hfinite hamount⟩

/-- A value is stored in its row, besides those that a row that delays its order has already. Nothing
can fail. -/
theorem ends_storeInRow (hm : m.Sound) (hc : m.Has (.column c)) (hrow : m.row? r = some row)
    (hv : v.isFinite = true ∧ v ≠ 0) (hforth : m.grid.stored (.column c) (.row r) = 0)
    (hback : row.delayed = false → m.grid.stored (.row r) (.column c) = 0) :
    Ends (do insertInRow r c v; noteIntegrality c r v; announceChange c r) m
      (fun _ m' => Reported m m' (m.amount.set c r (m.amount c r + v.rational))) E := by
  refine ends_remarks (a := m.amount c r + v.rational) (by rw [hrow]; rfl)
    ((ends_insertInRow hm hrow hc hv hback hforth).mono_ok fun _ u hu => ?_)
  have hsum : total (if row.isActive then {(v, true)} else 0)
      (m.grid.stored (.row r) (.column c) + {(v, row.isActive)}) =
        m.amount c r + v.rational := by
    rw [← zero_add (if row.isActive = true then _ else _), total_add, total_singleton_back,
      amount_eq_total, hforth]
  have hrevised := (hu.symm (by simp)).revised fun htotal => by
    rw [hsum, add_eq_left] at htotal
    exact (rational_ne_zero hv htotal).elim
  rwa [hsum] at hrevised

/-- A value that cannot be stored in a row is refused first. -/
theorem ends_storeInRow_infinite (hv : v.isFinite = false) :
    Ends (do insertInRow r c v; noteIntegrality c r v; announceChange c r) m
      (fun _ _ => False) fun _ m' => m' = m := by
  rw [insertInRow, Ends.bind_iff, Ends.bind_iff, ends_checkStorable_infinite (by simpa using hv)]

theorem adds_insertInRow (hm : m.Sound) (hc : m.Has (.column c)) (hrow : m.row? r = some row)
    (hunlocked : row.isLocked = false) (hzero : v.isZero = false)
    (hforth : m.grid.stored (.column c) (.row r) = 0)
    (hback : row.delayed = false → m.grid.stored (.row r) (.column c) = 0) :
    Adds (do insertInRow r c v; noteIntegrality c r v; announceChange c r) m c r v
      (m.amount.add? row.isLocked c r v) := by
  have hamount (horder : m.InOrder (.row r)) : m.amount c r = 0 :=
    amount_of_stored hforth (hback ((inOrder_row hrow).mp horder))
  cases hfinite : v.isFinite with
  | true =>
    have hv : v.isFinite = true ∧ v ≠ 0 := ⟨hfinite, by simpa [Extended.isZero] using hzero⟩
    refine (ends_storeInRow hm hc hrow hv hforth hback).mono_ok fun _ u hu => ⟨hu, fun horder => ?_⟩
    exact add?_isSome hunlocked (hamount horder) hfinite
  | false =>
    refine (ends_storeInRow_infinite hfinite).mono (fun _ _ h => h.elim) fun _ u hu => ?_
    subst hu
    exact ⟨hm.reported, fun horder => add?_infinite hfinite (hamount horder)⟩

/-- A row in order is searched after its column was searched in vain: either the coefficient is
found there, or nothing is stored of it. -/
theorem ends_findInRow_ordered (hrow : m.row? r = some row)
    (hordered : row.delayed = false) (hsound : t.Sound) (hsame : m.SameContent t)
    (hcolumn : m.grid.stored (.column c) (.row r) = 0) :
    Ends (findInRow r c) t (fun found u => (u.Sound ∧ m.SameContent u) ∧
      if found.isSome then m.amount c r ≠ 0 else m.grid.stored (.row r) (.column c) = 0) E := by
  obtain ⟨row₁, hrow₁, -, hdelayed₁, -⟩ := hsame.row_eq hrow
  refine (ends_findInRow hsound hrow₁).mono_ok fun found u hu => ?_
  obtain ⟨⟨hsound', hsame'⟩, hanswer⟩ := hu
  have hsame'' : m.SameContent u := hsame.trans hsame'
  refine ⟨⟨hsound', hsame''⟩, ?_⟩
  cases found with
  | some q =>
    simp only [Option.isSome_some, if_true]
    rw [← hsame''.amount]
    refine hsound'.amount_ne_zero_of_row ?_ hanswer (by rw [hsame''.stored, hcolumn])
    exact (inOrder_congr hsame''.without _).mpr ((inOrder_row hrow).mpr hordered)
  | none =>
    rw [if_neg (by simp), ← hsame.stored]
    exact hanswer (hdelayed₁.trans hordered)

theorem adds_addInColumn (hm : m.Sound) (hc : m.Has (.column c)) (hrow : m.row? r = some row) :
    Adds (addInColumn c r v) m c r v (m.amount.add? row.isLocked c r v) := by
  rw [Adds, addInColumn, Ends.bind_iff, ends_checkUnlocked hrow]
  refine ⟨fun hlocked => ⟨hm.reported, fun _ => by simp [Ledger.add?, hlocked]⟩,
    fun hunlocked => ?_⟩
  cases hzero : v.isZero with
  | true =>
    obtain ⟨hnothing, hsome⟩ := add?_of_isZero (m := m) (c := c) (r := r) hunlocked hzero
    rw [if_pos rfl, hnothing]
    exact ⟨hm.reported, fun _ => hsome⟩
  | false =>
    rw [if_neg (by simp), Ends.bind_iff, ends_checkOrdered hrow]
    refine ⟨fun hdelayed => ⟨hm.reported, fun horder => ?_⟩, fun hordered => ?_⟩
    · rw [inOrder_row hrow, hdelayed] at horder
      cases horder
    have horder : m.InOrder (.row r) := (inOrder_row hrow).mpr hordered
    rw [Ends.bind_iff]
    refine (ends_findInColumn hm hc hrow).mono_ok fun found t ht => ?_
    obtain ⟨⟨hsound, hsame⟩, hanswer⟩ := ht
    cases found with
    | some p =>
      simp only [Option.isSome_some, if_true, Ends.bind_iff, Ends.throw_iff]
      refine ⟨hsame.reported hsound, fun _ => add?_eq_none hunlocked hzero ?_⟩
      rw [← hsame.amount]
      exact hsound.amount_ne_zero_of_column ((inOrder_congr hsame.without _).mpr horder) hanswer
    | none =>
      rw [if_neg (by simp), Ends.bind_iff]
      refine (ends_findInRow_ordered hrow hordered hsound hsame hanswer).mono_ok
        fun found u hu => ?_
      obtain ⟨⟨hsound', hsame'⟩, hfound⟩ := hu
      cases found with
      | some q =>
        simp only [Option.isSome_some, if_true, Ends.bind_iff, Ends.throw_iff]
        exact ⟨hsame'.reported hsound', fun _ => add?_eq_none hunlocked hzero hfound⟩
      | none =>
        obtain ⟨row₂, hrow₂, -, -, hlocked₂⟩ := hsame'.row_eq hrow
        rw [if_neg (by simp), ← hlocked₂]
        refine (adds_insertInColumn hsound' ((has_congr hsame'.without _).mpr hc) hrow₂
          (hlocked₂.trans hunlocked) hzero ?_ ?_).rebase hsame'
        · rw [hsame'.stored]
          exact hanswer
        · rw [hsame'.stored]
          exact hfound

theorem adds_addInRow (hm : m.Sound) (hc : m.Has (.column c)) (hrow : m.row? r = some row) :
    Adds (addInRow r c v) m c r v (m.amount.add? row.isLocked c r v) := by
  rw [Adds, addInRow, Ends.bind_iff, ends_checkUnlocked hrow]
  refine ⟨fun hlocked => ⟨hm.reported, fun _ => by simp [Ledger.add?, hlocked]⟩,
    fun hunlocked => ?_⟩
  cases hzero : v.isZero with
  | true =>
    obtain ⟨hnothing, hsome⟩ := add?_of_isZero (m := m) (c := c) (r := r) hunlocked hzero
    rw [if_pos rfl, hnothing]
    exact ⟨hm.reported, fun _ => hsome⟩
  | false =>
    rw [if_neg (by simp), Ends.bind_iff, ends_getRow hrow, Ends.bind_iff]
    refine (ends_findInColumn hm hc hrow).mono_ok fun found t ht => ?_
    obtain ⟨⟨hsound, hsame⟩, hanswer⟩ := ht
    have hinsert {u : ConstraintMatrix} (hsound' : u.Sound) (hsame' : m.SameContent u)
        (hcolumn : m.grid.stored (.column c) (.row r) = 0)
        (hback : row.delayed = false → m.grid.stored (.row r) (.column c) = 0) :
        Ends (do insertInRow r c v; noteIntegrality c r v; announceChange c r) u
          (fun _ m' => Reported m m' (m.amount.set c r (m.amount c r + v.rational)) ∧
            (m.InOrder (.row r) → (m.amount.add? row.isLocked c r v).isSome = true))
          fun _ m' => Reported m m' m.amount ∧
            (m.InOrder (.row r) → m.amount.add? row.isLocked c r v = none) := by
      obtain ⟨row₂, hrow₂, -, hdelayed₂, hlocked₂⟩ := hsame'.row_eq hrow
      rw [← hlocked₂]
      refine (adds_insertInRow hsound' ((has_congr hsame'.without _).mpr hc) hrow₂
        (hlocked₂.trans hunlocked) hzero (by rw [hsame'.stored]; exact hcolumn) fun h => ?_).rebase
        hsame'
      rw [hsame'.stored]
      exact hback (hdelayed₂.symm.trans h)
    cases found with
    | some p =>
      simp only [Option.isSome_some, if_true, Ends.bind_iff, Ends.throw_iff]
      refine ⟨hsame.reported hsound, fun horder => add?_eq_none hunlocked hzero ?_⟩
      rw [← hsame.amount]
      exact hsound.amount_ne_zero_of_column ((inOrder_congr hsame.without _).mpr horder) hanswer
    | none =>
      rw [if_neg (by simp)]
      cases hdelayed : row.delayed with
      | true =>
        rw [if_neg (by simp)]
        exact hinsert hsound hsame hanswer fun h => by rw [hdelayed] at h; cases h
      | false =>
        rw [if_pos (by simp), Ends.bind_iff]
        refine (ends_findInRow_ordered hrow hdelayed hsound hsame hanswer).mono_ok
          fun found u hu => ?_
        obtain ⟨⟨hsound', hsame'⟩, hfound⟩ := hu
        cases found with
        | some q =>
          simp only [Option.isSome_some, if_true, Ends.bind_iff, Ends.throw_iff]
          exact ⟨hsame'.reported hsound', fun _ => add?_eq_none hunlocked hzero hfound⟩
        | none =>
          rw [if_neg (by simp)]
          exact hinsert hsound' hsame' hanswer fun _ => hfound

/-! ## Adding to a row that delays its order -/

/-- What is stored of a coefficient in its column is an entry there. -/
theorem ColumnHas.stored_ne_zero {p : Nat} (h : ColumnHas c r p m) :
    m.grid.stored (.column c) (.row r) ≠ 0 := by
  obtain ⟨w, link, he⟩ := h
  have hmem : (w, link.isSome) ∈ m.grid.stored (.column c) (.row r) :=
    Grid.mem_stored_iff.mpr ⟨p, _, cell_of_column he, rfl, rfl, rfl⟩
  intro hnone
  rw [hnone] at hmem
  exact Multiset.notMem_zero _ hmem

/-- A value that a row that delays its order accepts: it can be stored, and the column has none for the
row yet. What the row itself has for the column does not matter, and zero is accepted anyway. -/
def Appendable (m : ConstraintMatrix) (c : ColumnRef) (r : RowRef) (v : Extended) : Prop :=
  v = 0 ∨ (v.isFinite = true ∧ m.grid.stored (.column c) (.row r) = 0)

theorem ends_addInRow_delayed (hm : m.Sound) (hc : m.Has (.column c)) (hrow : m.row? r = some row)
    (hdelayed : row.delayed = true) :
    Ends (addInRow r c v) m (fun _ _ => row.isLocked = false ∧ m.Appendable c r v)
      fun _ _ => ¬ (row.isLocked = false ∧ m.Appendable c r v) := by
  rw [addInRow, Ends.bind_iff, ends_checkUnlocked hrow]
  refine ⟨fun hlocked h => by simp [hlocked] at h, fun hunlocked => ?_⟩
  rw [Ends.ite_iff]
  refine ⟨fun hzero => ⟨hunlocked, .inl (by simpa [Extended.isZero] using hzero)⟩, fun hzero => ?_⟩
  have hne : v ≠ 0 := by simpa [Extended.isZero] using hzero
  rw [Ends.bind_iff, ends_getRow hrow, Ends.bind_iff]
  refine (ends_findInColumn hm hc hrow).mono_ok fun found t ht => ?_
  obtain ⟨⟨hsound, hsame⟩, hanswer⟩ := ht
  cases found with
  | some p =>
    have hstored : m.grid.stored (.column c) (.row r) ≠ 0 := by
      rw [← hsame.stored]
      exact ColumnHas.stored_ne_zero hanswer
    simp only [Option.isSome_some, if_true, Ends.bind_iff, Ends.throw_iff]
    exact fun h => h.2.elim hne fun h => hstored h.2
  | none =>
    rw [if_neg (by simp), hdelayed, if_neg (by simp)]
    cases hfinite : v.isFinite with
    | true =>
      obtain ⟨row₁, hrow₁, -, hdelayed₁, -⟩ := hsame.row_eq hrow
      have hcolumn : t.grid.stored (.column c) (.row r) = 0 := by
        rw [hsame.stored]
        exact hanswer
      have hnot (hordered : row₁.delayed = false) : t.grid.stored (.row r) (.column c) = 0 := by
        rw [hdelayed₁, hdelayed] at hordered
        cases hordered
      refine (ends_storeInRow hsound ((has_congr hsame.without _).mpr hc) hrow₁ ⟨hfinite, hne⟩ hcolumn
        hnot).mono_ok fun _ _ _ => ?_
      exact ⟨hunlocked, .inr ⟨hfinite, hanswer⟩⟩
    | false =>
      refine (ends_storeInRow_infinite hfinite).mono (fun _ _ h => h.elim) fun _ _ _ h => ?_
      exact h.2.elim hne fun h => by simp [hfinite] at h

end ConstraintMatrix

end CertifiedLp
