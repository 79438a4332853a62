import Mathlib
import CertifiedLp.Proofs.Matrix.Adding

/-!
# Changing coefficients

A matrix follows the ledger of its coefficients: an edit of a row in order is accepted exactly when
the ledger accepts it, and then changes the coefficients as the ledger says. An edit that is refused
changes none of them.
-/

namespace CertifiedLp

namespace ConstraintMatrix

variable {m m' t : ConstraintMatrix} {c : ColumnRef} {r : RowRef} {row : Row} {v w : Extended}
variable {L : Ledger} {p q : Option Nat} {E : LpError → ConstraintMatrix → Prop}

/-! ## Following the ledger -/

/-- An edit is accepted exactly when the ledger accepts it, and then does what the ledger says. -/
def Follows (x : MatrixM Unit) (m : ConstraintMatrix) (outcome : Option Ledger) : Prop :=
  Ends x m (fun _ m' => ∃ L, outcome = some L ∧ Reported m m' L)
    fun _ m' => outcome = none ∧ Reported m m' m.amount

/-- An edit of a row that does not exist fails. -/
theorem ends_checkUnlocked_missing (h : m.row? r = none) {Q : Unit → ConstraintMatrix → Prop} :
    Ends (checkUnlocked r) m Q E ↔ E (.misuse (.rowMissing r)) m := by
  rw [checkUnlocked, Ends.bind_iff, ends_getRow_missing h]

theorem ends_checkOrdered_missing (h : m.row? r = none) {Q : Unit → ConstraintMatrix → Prop} :
    Ends (checkOrdered r) m Q E ↔ E (.misuse (.rowMissing r)) m := by
  rw [checkOrdered, Ends.bind_iff, ends_getRow_missing h]

/-! ## What was located -/

/-- A coefficient that is stored somewhere can be removed. -/
theorem Located.ends_removeBoth (h : Located m c r (p, q)) (hm : m.Sound)
    (hstored : (p.isNone && q.isNone) = false) :
    Ends (removeBoth c r p q) m (fun _ m' => Erased m m' c r) E := by
  cases h with
  | inColumn he => exact ends_removeBoth_of_column hm he
  | inRow hrow he => exact ends_removeBoth_of_row hm hrow he
  | nowhere hcolumn hrow => cases hstored

/-- No line has a coefficient that is zero. -/
theorem Sound.linked_eq_zero (hm : m.Sound) (hr : m.InOrder (.row r)) (h : m.amount c r = 0) :
    m.linked c r = 0 := by
  rw [linked]
  rcases Multiset.empty_or_exists_mem (m.grid.stored (.column c) (.row r)) with hnone | ⟨w, hw⟩
  · rw [hnone]
    rfl
  · obtain ⟨p, e, he, hpartner, -⟩ := Grid.mem_stored_iff.mp hw
    obtain ⟨e', he', rfl⟩ := partner_of_cell_column he
    obtain ⟨s, v, link⟩ := e'
    obtain rfl : s = r := Line.row.inj hpartner
    exact (hm.amount_ne_zero_of_column hr ⟨v, link, he'⟩ h).elim

theorem Erased.revised (h : Erased m m' c r) (hm : m.Sound) (hr : m.InOrder (.row r)) :
    Revised m m' (m.amount.set c r 0) := by
  obtain ⟨back, hupdated, hback⟩ := h.updated
  rw [hback hr] at hupdated
  exact hupdated.revised fun hzero => (hm.linked_eq_zero hr hzero.symm).symm

theorem Erased.spares (h : Erased m m' c r) : Spares m m' c r := by
  obtain ⟨back, hupdated, -⟩ := h.updated
  exact hupdated.spares

theorem Erased.sound (h : Erased m m' c r) : m'.Sound ∧ m.Stays m' := by
  obtain ⟨back, hupdated, -⟩ := h.updated
  exact ⟨hupdated.sound, .of_entries hupdated.without⟩

/-- Whether a coefficient is zero shows in where it is found. -/
theorem Located.amount_eq_zero_iff (h : Located m c r (p, q)) (hm : m.Sound)
    (hr : m.InOrder (.row r)) : m.amount c r = 0 ↔ (p.isNone && q.isNone) = true := by
  cases h with
  | inColumn he => simpa using hm.amount_ne_zero_of_column hr ⟨_, _, he⟩
  | inRow hrow he =>
    have hcolumn : m.grid.stored (.column c) (.row r) = 0 :=
      hm.tidy.oneSided (Grid.mem_stored_iff.mpr ⟨_, _, cell_of_row hrow he, rfl, rfl, rfl⟩)
    simpa using hm.amount_ne_zero_of_row hr ⟨_, _, _, hrow, he⟩ hcolumn
  | nowhere hcolumn hrow => simpa using amount_of_stored hcolumn (hrow hr)

/-- What is found in a column is overwritten there, and in the row if it is linked. -/
theorem Sound.revised_columnEntry (hm : m.Sound) (hr : m.InOrder (.row r)) {i : Nat}
    (he : (m.column c).entries.entries[i]? = some ⟨r, w, q⟩) (hv : v.isFinite = true ∧ v ≠ 0) :
    Revised m (m.withPairValue (.column c) i (.row r) v q) (m.amount.set c r v.rational) := by
  have hcell : m.grid.cell (.column c) i = some ⟨.row r, w, q⟩ := cell_of_column he
  have hstored : m.grid.stored (.column c) (.row r) = {(w, q.isSome)} :=
    hm.tidy.stored_eq_singleton (x := .column c) trivial
      (Grid.mem_stored_iff.mpr ⟨i, _, hcell, rfl, rfl, rfl⟩)
  have hupdated := hm.updated_withPairValue (x := .column c) trivial hr hcell (by simp) hv
  rw [← total_singleton v q.isSome]
  refine hupdated.revised fun hsame => ?_
  rw [total_singleton, amount_of_content (hm.content_of_column hr he)] at hsame
  rw [linked, hstored, linkedTotal_singleton, linkedTotal_singleton, hsame]

/-- What is found in a row only is overwritten there. -/
theorem Sound.revised_rowEntry (hm : m.Sound) (hrow : m.row? r = some row)
    (hr : m.InOrder (.row r)) {i : Nat} (he : row.entries.entries[i]? = some ⟨c, w, none⟩)
    (hv : v.isFinite = true ∧ v ≠ 0) :
    Revised m (m.withValue (.row r) i v) (m.amount.set c r v.rational) := by
  have hcell : m.grid.cell (.row r) i = some ⟨.column c, w, none⟩ := cell_of_row hrow he
  have hstored : m.grid.stored (.column c) (.row r) = 0 :=
    hm.tidy.oneSided (Grid.mem_stored_iff.mpr ⟨i, _, hcell, rfl, rfl, rfl⟩)
  have hupdated := hm.updated_withPairValue (x := .row r) (y := .column c) hr trivial hcell
    (by simp) hv
  have hrevised := (hupdated.symm (by simp)).revised fun _ => by
    rw [linked, hstored]
    rfl
  rwa [show total (if (none : Option Nat).isSome then {(v, true)} else 0)
    {(v, (none : Option Nat).isSome)} = v.rational from total_singleton_back v false] at hrevised

/-! ## Changing -/

/-- What an edit revises after a search, it revises altogether. -/
theorem SameContent.revised_set (h : m.SameContent t) {a : Rat}
    (hset : Revised t m' (t.amount.set c r a)) : Revised m m' (m.amount.set c r a) :=
  h.rebase (h.amount ▸ hset)

theorem change?_of_isFinite (hunlocked : row.isLocked = false) (hv : v.isFinite = true) :
    L.change? row.isLocked c r v = some (L.set c r v.rational) := by
  obtain ⟨a, rfl⟩ := Extended.isFinite_iff.mp hv
  simp [Ledger.change?, hunlocked]

theorem ends_change_delayed (hrow : m.row? r = some row) (hdelayed : row.delayed = true) :
    Ends (change c r v) m (fun _ _ => False) fun _ m' => m' = m := by
  rw [change, Ends.bind_iff, ends_checkUnlocked hrow]
  refine ⟨fun _ => rfl, fun _ => ?_⟩
  rw [Ends.bind_iff, ends_checkOrdered hrow]
  refine ⟨fun _ => rfl, fun hordered => ?_⟩
  rw [hdelayed] at hordered
  cases hordered

theorem follows_change (hm : m.Sound) (hc : m.Has (.column c)) (hrow : m.row? r = some row)
    (hordered : row.delayed = false) :
    Follows (change c r v) m (m.amount.change? row.isLocked c r v) := by
  have horder : m.InOrder (.row r) := (inOrder_row hrow).mpr hordered
  have hisSome : (m.row? r).isSome = true := by rw [hrow]; rfl
  rw [Follows, change, Ends.bind_iff, ends_checkUnlocked hrow]
  refine ⟨fun hlocked => ⟨by simp [Ledger.change?, hlocked], hm.reported⟩, fun hunlocked => ?_⟩
  rw [Ends.bind_iff, ends_checkOrdered hrow]
  refine ⟨fun hdelayed => ?_, fun _ => ?_⟩
  · rw [hordered] at hdelayed
    cases hdelayed
  cases hfinite : v.isFinite with
  | false =>
    have hnone : v.finite? = none := by simpa [Extended.isFinite] using hfinite
    simp only [Extended.isInfinite, hfinite, Bool.not_false, if_true, Ends.bind_iff,
      Ends.throw_iff]
    exact ⟨by simp [Ledger.change?, hnone], hm.reported⟩
  | true =>
    suffices hrest : Ends _ m (fun _ m' => Reported m m' (m.amount.set c r v.rational))
        (fun _ _ => False) from
      hrest.mono (fun _ _ h => ⟨_, change?_of_isFinite hunlocked hfinite, h⟩) fun _ _ h => h.elim
    simp only [Extended.isInfinite, hfinite, Bool.not_true, Bool.false_eq_true, if_false,
      Ends.bind_iff]
    refine (ends_locate hm hc hrow).mono_ok fun found t ht => ?_
    obtain ⟨⟨hsound, hsame⟩, hlocated⟩ := ht
    obtain ⟨p, q⟩ := found
    have hr : t.InOrder (.row r) := (inOrder_congr hsame.without _).mpr horder
    obtain ⟨row₁, hrow₁, -⟩ := hsame.row_eq hrow
    cases hzero : v.isZero with
    | true =>
      have hv : v.rational = 0 := by
        rw [show v = 0 by simpa [Extended.isZero] using hzero, Extended.zero_def,
          Extended.rational_finite]
      rw [if_pos rfl, hv, Ends.ite_iff]
      refine ⟨fun hnone => ?_, fun hsome => ?_⟩
      · have hamount := (hlocated.amount_eq_zero_iff hsound hr).mpr hnone
        rw [hsame.amount] at hamount
        rw [← hamount, Ledger.set_self]
        exact hsame.reported hsound
      · rw [Ends.bind_iff]
        refine (hlocated.ends_removeBoth hsound (Bool.eq_false_iff.mpr hsome)).mono_ok
          fun _ u hu => ?_
        exact ((hsame.revised_set (hu.revised hsound hr)).ends_announceChange hisSome).mono_ok
          fun _ _ h => h.1
    | false =>
      have hv : v.isFinite = true ∧ v ≠ 0 := ⟨hfinite, by simpa [Extended.isZero] using hzero⟩
      rw [if_neg (by simp)]
      cases hlocated with
      | nowhere hcolumn hrow₂ =>
        refine ends_remarks hisSome ((ends_insertInColumn hsound
          ((has_congr hsame.without _).mpr hc) hrow₁ hv hcolumn (hrow₂ hr)).mono_ok
          fun _ u hu => ?_)
        have hrevised := hu.revised fun htotal => by
          rw [total_singleton, amount_of_stored hcolumn (hrow₂ hr)] at htotal
          exact (rational_ne_zero hv htotal).elim
        rw [total_singleton] at hrevised
        exact hsame.revised_set hrevised
      | inRow hrow₂ he =>
        exact ends_remarks hisSome ((ends_updateRow hrow₂).mpr
          (hsame.revised_set (hsound.revised_rowEntry hrow₂ hr he hv)))
      | @inColumn i w _ he =>
        have hrevised := hsame.revised_set (hsound.revised_columnEntry hr he hv)
        simp only [Option.isNone_some, Bool.false_and, Bool.false_eq_true, if_false]
        cases q with
        | none =>
          rw [Ends.bind_iff, ends_updateColumn]
          exact hrevised.ends_remarks hisSome
        | some k =>
          rw [Ends.bind_iff, ends_updateColumn, Ends.bind_iff,
            ends_updateRow ((row?_modifyColumn ..).trans hrow₁)]
          exact hrevised.ends_remarks hisSome

/-! ## Increasing -/

/-- Increasing a coefficient of a row in order changes it, and in a row that delays its order this
adds another value. -/
theorem adds_increase (hm : m.Sound) (hc : m.Has (.column c)) (hrow : m.row? r = some row) :
    Adds (increase r c v) m c r v (m.amount.increase? row.isLocked c r v) := by
  rw [Adds, increase, Ends.bind_iff, ends_checkUnlocked hrow]
  refine ⟨fun hlocked => ⟨hm.reported, fun _ => by simp [Ledger.increase?, hlocked]⟩,
    fun hunlocked => ?_⟩
  cases hzero : v.isZero with
  | true =>
    have hv : v = 0 := by simpa [Extended.isZero] using hzero
    rw [if_pos rfl, (add?_of_isZero (m := m) (c := c) (r := r) hunlocked hzero).1]
    exact ⟨hm.reported, fun _ => by simp [Ledger.increase?, hunlocked, hv, Extended.zero_def]⟩
  | false =>
    rw [if_neg (by simp), Ends.bind_iff, ends_getRow hrow, Ends.ite_iff]
    refine ⟨fun hdelayed => ?_, fun hordered => ?_⟩
    · have hdisordered (h : m.InOrder (.row r)) : False := by
        rw [inOrder_row hrow, hdelayed] at h
        cases h
      exact (adds_addInRow hm hc hrow).mono (fun _ _ h => ⟨h.1, fun hr => (hdisordered hr).elim⟩)
        fun _ _ h => ⟨h.1, fun hr => (hdisordered hr).elim⟩
    · have hordered : row.delayed = false := Bool.eq_false_iff.mpr hordered
      rw [Ends.bind_iff]
      refine (ends_coefficient hm hc hrow hordered).mono_ok fun current t ht => ?_
      obtain ⟨⟨hsound, hsame⟩, rfl⟩ := ht
      obtain ⟨row₁, hrow₁, -, hdelayed₁, hlocked₁⟩ := hsame.row_eq hrow
      have hchange := follows_change (v := .finite (m.amount c r) + v) hsound
        ((has_congr hsame.without _).mpr hc) hrow₁ (hdelayed₁.trans hordered)
      have houtcome : t.amount.change? row₁.isLocked c r (.finite (m.amount c r) + v) =
          m.amount.increase? row.isLocked c r v := by
        rw [hsame.amount, hlocked₁]
        cases v <;> rfl
      rw [Follows, houtcome] at hchange
      refine hchange.mono (fun _ u hu => ?_) fun _ u hu => ?_
      · obtain ⟨L, hL, hu⟩ := hu
        rw [← Ledger.eq_of_increase?_eq_some hL]
        exact ⟨hsame.rebase_reported hu, fun _ => by rw [hL]; rfl⟩
      · exact ⟨hsame.rebase_reported (hsame.amount ▸ hu.2), fun _ => hu.1⟩

/-! ## Removing -/

/-- What removing a coefficient keeps, also in a row that delays its order. If it is refused, then no
part of the coefficient became known to another line or was forgotten. -/
structure Deleted (m m' : ConstraintMatrix) (c : ColumnRef) (r : RowRef) (accepted : Bool) :
    Prop where
  sound : m'.Sound
  stays : m.Stays m'
  spares : Spares m m' c r
  announced : if accepted then m'.Announced c r else m'.linked c r = m.linked c r

/-- Removing a coefficient keeps a matrix sound, and follows the ledger if the row is in order. -/
theorem ends_delete (hm : m.Sound) (hc : m.Has (.column c)) (hrow : m.row? r = some row) :
    Ends (delete c r) m
      (fun _ m' => Deleted m m' c r true ∧ (m.InOrder (.row r) →
        m.amount.delete? row.isLocked c r = some m'.amount))
      fun _ m' => Deleted m m' c r false ∧ (m.InOrder (.row r) →
        m.amount.delete? row.isLocked c r = none ∧ m'.amount = m.amount) := by
  rw [delete, Ends.bind_iff, ends_checkUnlocked hrow]
  refine ⟨fun hlocked => ⟨⟨hm, .refl m, (SameContent.refl m).spares, rfl⟩,
    fun _ => by simp [Ledger.delete?, hlocked]⟩, fun hunlocked => ?_⟩
  rw [Ends.bind_iff]
  refine (ends_locate hm hc hrow).mono_ok fun found t ht => ?_
  obtain ⟨⟨hsound, hsame⟩, hlocated⟩ := ht
  obtain ⟨p, q⟩ := found
  have hstays : m.Stays t := .of_entries hsame.without
  have hzero (horder : m.InOrder (.row r)) :
      m.amount c r = 0 ↔ (p.isNone && q.isNone) = true := by
    rw [← hsame.amount]
    exact hlocated.amount_eq_zero_iff hsound ((inOrder_congr hsame.without _).mpr horder)
  simp only
  rw [Ends.ite_iff]
  refine ⟨fun hnone => ?_, fun hsome => ?_⟩
  · simp only [Ends.bind_iff, Ends.throw_iff]
    refine ⟨⟨hsound, hstays, hsame.spares, by simp [hsame.linked]⟩,
      fun horder => ⟨?_, hsame.amount⟩⟩
    simp [Ledger.delete?, (hzero horder).mpr hnone]
  · rw [Ends.bind_iff]
    refine (hlocated.ends_removeBoth hsound (Bool.eq_false_iff.mpr hsome)).mono_ok
      fun _ u hu => ?_
    obtain ⟨hsound', hstays'⟩ := hu.sound
    have hmoved : m.Stays u := hstays.trans hstays'
    obtain ⟨row₂, hrow₂⟩ := hmoved.exists_row hrow
    have hremarked : Ends (announceChange c r) u (fun _ m' => Remarked u m') fun _ _ => False :=
      remarked_announceChange hrow₂
    refine (hremarked.and (ends_announceChange_announced c r u)).mono (fun _ m' hm' => ?_)
      fun _ _ hm' => hm'.1.elim
    obtain ⟨hremarks, hannounced⟩ := hm'
    refine ⟨⟨hsound'.congr hremarks.shape, hmoved.trans hremarks.stays,
      (Spares.trans hsame.spares hu.spares).trans hremarks.spares, hannounced⟩, fun horder => ?_⟩
    have hr : t.InOrder (.row r) := (inOrder_congr hsame.without _).mpr horder
    have herased := (hsame.revised_set (hu.revised hsound hr)).remark hremarks
    rw [herased.amount, Ledger.delete?, hunlocked,
      if_neg (by simpa using fun h => hsome ((hzero horder).mp h))]

end ConstraintMatrix

end CertifiedLp
