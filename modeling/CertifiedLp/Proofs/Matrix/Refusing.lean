import Mathlib
import CertifiedLp.Proofs.Incidence.Parts
import CertifiedLp.Proofs.Matrix.Editing

/-!
# Refused edits of a matrix

A coefficient is searched before it is decided whether an edit is carried out, and a search sorts
the parts that it looks at. Everything else that an edit does comes after the decision. So a refused
edit leaves every line with the same entries in the same parts, at most in another order.
-/

namespace CertifiedLp

namespace Grid

variable {g g' : Grid} {x : Line} {κ : Type} {name : κ → Line} {l l' : Incidence κ} {part : Part}

/-- A part has the entries that belong there. -/
theorem Wired.inPart_eq_filter (h : g.Wired) (hs : g.Shows x name l) (part : Part) :
    l.inPart part = l.entries.toList.filter fun e =>
      decide (Part.ofEntry (g.isActive (name e.partner)) e.link.isSome = part) := by
  have hused (i : Nat) (e : Entry κ) (he : l.entries.toList[i]? = some e) :
      i < l.nrActive ↔ (e.link.isSome && g.isActive (name e.partner)) = true := by
    rw [Array.getElem?_toList] at he
    have hcell : g.cell x i = some (e.map name) := by rw [hs.cell, he, Option.map_some]
    rw [← hs.nrActive, h.parted x i _ hcell id, Bool.and_eq_true]
    rfl
  cases part with
  | active =>
    refine take_eq_filter fun i e he => (hused i e he).trans ?_
    rw [Part.ofEntry, decide_eq_true_eq]
    split <;> simp_all
  | rest =>
    refine drop_eq_filter fun i e he => (hused i e he).trans ?_
    rw [Part.ofEntry, decide_eq_false_iff_not]
    split <;> simp_all

/-- What the entries of a line say is determined by what is stored for each partner. -/
theorem Shows.perm_contents (hs : g.Shows x name l) (hs' : g'.Shows x name l')
    (hstored : g'.stored = g.stored) :
    (l'.entries.toList.map Entry.content).Perm (l.entries.toList.map Entry.content) := by
  classical
  have hcount {g : Grid} {l : Incidence κ} (hs : g.Shows x name l) (k : κ) (v : Extended)
      (b : Bool) : Multiset.count (k, v, b) (l.entries.toList.map Entry.content : List _) =
        (g.stored x (name k)).count (v, b) := by
    rw [stored, Multiset.count, Multiset.count, Multiset.coe_countP, Multiset.coe_countP, hs.cells,
      List.countP_map, List.countP_map, List.countP_filter, Array.toList_map, List.countP_map]
    refine List.countP_congr fun e _ => ?_
    simp only [Function.comp_apply, Entry.content, Entry.map, Prod.mk.injEq, Bool.and_eq_true,
      decide_eq_true_eq, hs.injective.eq_iff]
    grind
  rw [← Multiset.coe_eq_coe]
  ext ⟨k, v, b⟩
  rw [hcount hs', hcount hs, hstored]

/-- Where the same is stored between the same active lines, the parts of a line are the same. -/
theorem Wired.reordered [Reference κ] (h : g.Wired) (h' : g'.Wired) (hs : g.Shows x name l)
    (hs' : g'.Shows x name l') (hcounted : l.Counted) (hcounted' : l'.Counted)
    (hactive : g'.isActive = g.isActive) (hstored : g'.stored = g.stored) : l.Reordered l' := by
  have hcontents := hs.perm_contents hs' hstored
  have hfilter {g : Grid} {l : Incidence κ} (h : g.Wired) (hs : g.Shows x name l) (part : Part) :
      (l.inPart part).map Entry.content = (l.entries.toList.map Entry.content).filter fun e =>
        decide (Part.ofEntry (g.isActive (name e.1)) e.2.2 = part) := by
    rw [h.inPart_eq_filter hs, List.filter_map]
    rfl
  have hparts (part : Part) :
      ((l'.inPart part).map Entry.content).Perm ((l.inPart part).map Entry.content) := by
    rw [hfilter h hs, hfilter h' hs', hactive]
    exact hcontents.filter _
  have hnr {g : Grid} {l : Incidence κ} (h : g.Wired) (hs : g.Shows x name l) :
      ((l.inPart .active).map Entry.content).length = l.nrActive := by
    have hle : l.nrActive ≤ l.entries.size := by
      rw [← hs.nrActive, show l.entries.size = l.size from rfl, hs.size]
      exact h.bounded x
    simpa [Incidence.inPart] using hle
  refine ⟨?_, ?_, ?_, hparts⟩
  · simpa [Incidence.size] using hcontents.length_eq
  · rw [← hnr h' hs', ← hnr h hs, (hparts .active).length_eq]
  · have hunlinked (l : Incidence κ) : l.entries.toList.countP (·.link.isNone) =
        (l.entries.toList.map Entry.content).countP fun e => !e.2.2 := by
      rw [List.countP_map]
      refine List.countP_congr fun e _ => ?_
      simp [Entry.content]
    rw [hcounted.unlinked, hcounted'.unlinked, hunlinked, hunlinked, hcontents.countP_eq]

end Grid

namespace ConstraintMatrix

variable {m m' t : ConstraintMatrix} {c : ColumnRef} {r : RowRef} {row row' : Row} {v : Extended}
variable {x : MatrixM Unit} {Q : Unit → ConstraintMatrix → Prop}

/-- At most the order of entries within the parts of their lines is different. -/
structure Reordered (m m' : ConstraintMatrix) : Prop where
  without : m'.without .entries = m.without .entries
  column : ∀ c, (m.column c).entries.Reordered (m'.column c).entries
  row : ∀ {r row}, m.row? r = some row →
    ∃ row', m'.row? r = some row' ∧ row.entries.Reordered row'.entries

theorem Reordered.refl (m : ConstraintMatrix) : m.Reordered m :=
  ⟨rfl, fun _ => .refl _, fun hrow => ⟨_, hrow, .refl _⟩⟩

section Sound

variable (hm : m.Sound) (hm' : m'.Sound) (hactive : m'.grid.isActive = m.grid.isActive)
variable (hstored : m'.grid.stored = m.grid.stored)

include hm hm' hactive hstored

theorem Sound.reordered_column (c : ColumnRef) :
    (m.column c).entries.Reordered (m'.column c).entries :=
  hm.wired.reordered hm'.wired (m.shows_column c) (m'.shows_column c) (hm.counted (.column c))
    (hm'.counted (.column c)) hactive hstored

theorem Sound.reordered_row (hrow : m.row? r = some row) (hrow' : m'.row? r = some row') :
    row.entries.Reordered row'.entries :=
  hm.wired.reordered hm'.wired (shows_row hrow) (shows_row hrow') (hm.counted (.row r) row hrow)
    (hm'.counted (.row r) row' hrow') hactive hstored

end Sound

/-- Sound matrices with the same content differ in the order of entries only. -/
theorem SameContent.reordered (h : m.SameContent m') (hm : m.Sound) (hm' : m'.Sound) :
    m.Reordered m' where
  without := h.without
  column := hm.reordered_column hm' (isActive_congr h.without) h.stored
  row {r row} hrow := by
    obtain ⟨row', hrow', -⟩ := h.row_eq hrow
    exact ⟨row', hrow', hm.reordered_row hm' (isActive_congr h.without) h.stored hrow hrow'⟩

/-! ## Refusals -/

/-- If an operation fails, then nothing but searches came before that. -/
def FailsEarly (x : MatrixM Unit) (m : ConstraintMatrix) : Prop :=
  Ends x m (fun _ _ => True) fun _ t => t.Sound ∧ m.SameContent t

/-- An operation that fails early can follow a search. -/
theorem FailsEarly.rebase (h : FailsEarly x t) (hsame : m.SameContent t) :
    Ends x t (fun _ _ => True) fun _ u => u.Sound ∧ m.SameContent u :=
  h.mono (fun _ _ _ => trivial) fun _ _ hu => ⟨hu.1, hsame.trans hu.2⟩

theorem failsEarly_of_unfailing (h : Ends x m Q fun _ _ => False) : FailsEarly x m :=
  h.mono (fun _ _ _ => trivial) fun _ _ hfalse => hfalse.elim

/-- A refusal of what was not looked for yet changes nothing at all. -/
theorem failsEarly_of_eq (hm : m.Sound) (h : Ends x m Q fun _ t => t = m) : FailsEarly x m :=
  h.mono (fun _ _ _ => trivial) fun _ _ ht => by
    subst ht
    exact ⟨hm, .refl _⟩

/-- What is noted about a stored or removed coefficient is noted without fail. -/
theorem ends_notes (hrow : (m.row? r).isSome = true) {E : LpError → ConstraintMatrix → Prop} :
    Ends (do noteIntegrality c r v; announceChange c r) m (fun _ _ => True) E := by
  obtain ⟨row, hrow⟩ := Option.isSome_iff_exists.mp hrow
  rw [Ends.bind_iff]
  refine (ends_noteIntegrality hrow).mono_ok fun _ t ht => ?_
  obtain ⟨row', hrow'⟩ := ht.stays.exists_row hrow
  exact (remarked_announceChange hrow').mono_ok fun _ _ _ => trivial

/-- A value is stored and noted, or it cannot be stored at all. -/
theorem failsEarly_store {insert : MatrixM Unit} {y z : Line}
    {forth back : Multiset (Extended × Bool)} (hm : m.Sound) (hrow : m.row? r = some row)
    (hzero : v.isZero = false)
    (hstore : v.isFinite = true ∧ v ≠ 0 →
      Ends insert m (fun _ t => Updated m t y z forth back) fun _ _ => False)
    (hrefuse : v.isInfinite = true → Ends insert m (fun _ _ => False) fun _ t => t = m) :
    FailsEarly (do insert; noteIntegrality c r v; announceChange c r) m := by
  cases hfinite : v.isFinite with
  | true =>
    have hv : v.isFinite = true ∧ v ≠ 0 := ⟨hfinite, by simpa [Extended.isZero] using hzero⟩
    refine failsEarly_of_unfailing (Q := fun _ _ => True) ?_
    rw [Ends.bind_iff]
    refine (hstore hv).mono_ok fun _ t ht => ends_notes ?_
    rw [(Stays.of_entries ht.without).isSome_row? r, hrow]
    rfl
  | false =>
    refine failsEarly_of_eq (Q := fun _ _ => True) hm ?_
    rw [Ends.bind_iff]
    exact (hrefuse (by simpa using hfinite)).mono_ok fun _ _ hfalse => hfalse.elim

theorem failsEarly_storeInColumn (hm : m.Sound) (hc : m.Has (.column c))
    (hrow : m.row? r = some row) (hzero : v.isZero = false)
    (hforth : m.grid.stored (.column c) (.row r) = 0)
    (hback : m.grid.stored (.row r) (.column c) = 0) :
    FailsEarly (do insertInColumn c r v; noteIntegrality c r v; announceChange c r) m := by
  refine failsEarly_store hm hrow hzero (fun hv => ends_insertInColumn hm hc hrow hv hforth hback)
    fun hv => ?_
  rw [insertInColumn, Ends.bind_iff, ends_checkStorable_infinite hv]

theorem failsEarly_storeInRow (hm : m.Sound) (hc : m.Has (.column c))
    (hrow : m.row? r = some row) (hzero : v.isZero = false)
    (hforth : m.grid.stored (.column c) (.row r) = 0)
    (hback : row.delayed = false → m.grid.stored (.row r) (.column c) = 0) :
    FailsEarly (do insertInRow r c v; noteIntegrality c r v; announceChange c r) m := by
  refine failsEarly_store hm hrow hzero (fun hv => ends_insertInRow hm hrow hc hv hback hforth)
    fun hv => ?_
  rw [insertInRow, Ends.bind_iff, ends_checkStorable_infinite hv]

/-! ## The edits -/

section Edits

variable (hm : m.Sound) (hc : m.Has (.column c)) (hrow : m.row? r = some row)

include hm hc hrow

theorem failsEarly_addInColumn : FailsEarly (addInColumn c r v) m := by
  rw [FailsEarly, addInColumn, Ends.bind_iff, ends_checkUnlocked hrow]
  refine ⟨fun _ => ⟨hm, .refl m⟩, fun _ => ?_⟩
  cases hzero : v.isZero with
  | true =>
    rw [if_pos rfl]
    trivial
  | false =>
    rw [if_neg (by simp), Ends.bind_iff, ends_checkOrdered hrow]
    refine ⟨fun _ => ⟨hm, .refl m⟩, fun hordered => ?_⟩
    rw [Ends.bind_iff]
    refine (ends_findInColumn hm hc hrow).mono_ok fun found t ht => ?_
    obtain ⟨⟨hsound, hsame⟩, hanswer⟩ := ht
    cases found with
    | some p =>
      simp only [Option.isSome_some, if_true, Ends.bind_iff, Ends.throw_iff]
      exact ⟨hsound, hsame⟩
    | none =>
      rw [if_neg (by simp), Ends.bind_iff]
      refine (ends_findInRow_ordered hrow hordered hsound hsame hanswer).mono_ok
        fun found u hu => ?_
      obtain ⟨⟨hsound', hsame'⟩, hfound⟩ := hu
      cases found with
      | some q =>
        simp only [Option.isSome_some, if_true, Ends.bind_iff, Ends.throw_iff]
        exact ⟨hsound', hsame'⟩
      | none =>
        obtain ⟨row', hrow', -⟩ := hsame'.row_eq hrow
        rw [if_neg (by simp)]
        refine (failsEarly_storeInColumn hsound' ((has_congr hsame'.without _).mpr hc) hrow' hzero
          ?_ ?_).rebase hsame'
        · rw [hsame'.stored]
          exact hanswer
        · rw [hsame'.stored]
          exact hfound

theorem failsEarly_addInRow : FailsEarly (addInRow r c v) m := by
  rw [FailsEarly, addInRow, Ends.bind_iff, ends_checkUnlocked hrow]
  refine ⟨fun _ => ⟨hm, .refl m⟩, fun _ => ?_⟩
  cases hzero : v.isZero with
  | true =>
    rw [if_pos rfl]
    trivial
  | false =>
    rw [if_neg (by simp), Ends.bind_iff, ends_getRow hrow, Ends.bind_iff]
    refine (ends_findInColumn hm hc hrow).mono_ok fun found t ht => ?_
    obtain ⟨⟨hsound, hsame⟩, hanswer⟩ := ht
    have hstore {u : ConstraintMatrix} (hsound' : u.Sound) (hsame' : m.SameContent u)
        (hforth : m.grid.stored (.column c) (.row r) = 0)
        (hback : row.delayed = false → m.grid.stored (.row r) (.column c) = 0) :
        Ends (do insertInRow r c v; noteIntegrality c r v; announceChange c r) u
          (fun _ _ => True) fun _ w => w.Sound ∧ m.SameContent w := by
      obtain ⟨row', hrow', -, hdelayed', -⟩ := hsame'.row_eq hrow
      refine (failsEarly_storeInRow hsound' ((has_congr hsame'.without _).mpr hc) hrow' hzero
        (by rw [hsame'.stored]; exact hforth) fun h => ?_).rebase hsame'
      rw [hsame'.stored]
      exact hback (hdelayed'.symm.trans h)
    cases found with
    | some p =>
      simp only [Option.isSome_some, if_true, Ends.bind_iff, Ends.throw_iff]
      exact ⟨hsound, hsame⟩
    | none =>
      rw [if_neg (by simp)]
      cases hdelayed : row.delayed with
      | true =>
        rw [if_neg (by simp)]
        exact hstore hsound hsame hanswer fun h => by rw [hdelayed] at h; cases h
      | false =>
        rw [if_pos (by simp), Ends.bind_iff]
        refine (ends_findInRow_ordered hrow hdelayed hsound hsame hanswer).mono_ok
          fun found u hu => ?_
        obtain ⟨⟨hsound', hsame'⟩, hfound⟩ := hu
        cases found with
        | some q =>
          simp only [Option.isSome_some, if_true, Ends.bind_iff, Ends.throw_iff]
          exact ⟨hsound', hsame'⟩
        | none =>
          rw [if_neg (by simp)]
          exact hstore hsound' hsame' hanswer fun _ => hfound

/-- What can be set is set. -/
theorem failsEarly_change : FailsEarly (change c r v) m := by
  cases hdelayed : row.delayed with
  | true => exact failsEarly_of_eq hm (ends_change_delayed hrow hdelayed)
  | false =>
    cases hlocked : row.isLocked with
    | true =>
      refine failsEarly_of_eq (Q := fun _ _ => False) hm ?_
      rw [change, Ends.bind_iff, ends_checkUnlocked hrow]
      exact ⟨fun _ => rfl, fun hunlocked => by rw [hlocked] at hunlocked; cases hunlocked⟩
    | false =>
      cases hfinite : v.isFinite with
      | true =>
        refine failsEarly_of_unfailing ((follows_change (v := v) hm hc hrow hdelayed).mono
          (fun _ _ ht => ht) fun _ _ ht => ?_)
        rw [change?_of_isFinite hlocked hfinite] at ht
        cases ht.1
      | false =>
        refine failsEarly_of_eq (Q := fun _ _ => False) hm ?_
        rw [change, Ends.bind_iff, ends_checkUnlocked hrow]
        refine ⟨fun _ => rfl, fun _ => ?_⟩
        rw [Ends.bind_iff, ends_checkOrdered hrow]
        refine ⟨fun _ => rfl, fun _ => ?_⟩
        simp only [Extended.isInfinite, hfinite, Bool.not_false, if_true, Ends.bind_iff,
          Ends.throw_iff]

theorem failsEarly_increase : FailsEarly (increase r c v) m := by
  rw [FailsEarly, increase, Ends.bind_iff, ends_checkUnlocked hrow]
  refine ⟨fun _ => ⟨hm, .refl m⟩, fun _ => ?_⟩
  cases hzero : v.isZero with
  | true =>
    rw [if_pos rfl]
    trivial
  | false =>
    rw [if_neg (by simp), Ends.bind_iff, ends_getRow hrow, Ends.ite_iff]
    refine ⟨fun _ => failsEarly_addInRow hm hc hrow, fun hordered => ?_⟩
    rw [Ends.bind_iff]
    refine (ends_coefficient hm hc hrow (Bool.eq_false_iff.mpr hordered)).mono_ok
      fun current t ht => ?_
    obtain ⟨⟨hsound, hsame⟩, -⟩ := ht
    obtain ⟨row', hrow', -⟩ := hsame.row_eq hrow
    exact (failsEarly_change hsound ((has_congr hsame.without _).mpr hc) hrow').rebase hsame

theorem failsEarly_delete : FailsEarly (delete c r) m := by
  rw [FailsEarly, delete, Ends.bind_iff, ends_checkUnlocked hrow]
  refine ⟨fun _ => ⟨hm, .refl m⟩, fun _ => ?_⟩
  rw [Ends.bind_iff]
  refine (ends_locate hm hc hrow).mono_ok fun found t ht => ?_
  obtain ⟨⟨hsound, hsame⟩, hlocated⟩ := ht
  obtain ⟨p, q⟩ := found
  simp only
  rw [Ends.ite_iff]
  refine ⟨fun _ => ⟨hsound, hsame⟩, fun hsome => ?_⟩
  rw [Ends.bind_iff]
  refine (hlocated.ends_removeBoth hsound (Bool.eq_false_iff.mpr hsome)).mono_ok fun _ u hu => ?_
  obtain ⟨row', hrow'⟩ := ((Stays.of_entries hsame.without).trans hu.sound.2).exists_row hrow
  exact (remarked_announceChange hrow').mono_ok fun _ _ _ => trivial

/-- An edit that is refused was refused before it had an effect. -/
theorem failsEarly_edit (e : Edit) : FailsEarly (edit c r e) m := by
  cases e with
  | addInColumn v => exact failsEarly_addInColumn hm hc hrow
  | addInRow v => exact failsEarly_addInRow hm hc hrow
  | change v => exact failsEarly_change hm hc hrow
  | increase v => exact failsEarly_increase hm hc hrow
  | delete => exact failsEarly_delete hm hc hrow

end Edits

/-- No edit gets through to a locked row, and none is even searched for. -/
theorem ends_edit_locked (hrow : m.row? r = some row) (hlocked : row.isLocked = true)
    (c : ColumnRef) (e : Edit) :
    Ends (edit c r e) m (fun _ _ => False)
      fun error t => error = .misuse (.rowLocked r) ∧ t = m := by
  have hguard (rest : Unit → MatrixM Unit) : Ends (checkUnlocked r >>= rest) m (fun _ _ => False)
      fun error t => error = .misuse (.rowLocked r) ∧ t = m := by
    rw [Ends.bind_iff, ends_checkUnlocked hrow]
    exact ⟨fun _ => ⟨rfl, rfl⟩, fun hunlocked => by rw [hlocked] at hunlocked; cases hunlocked⟩
  cases e <;> exact hguard _

end ConstraintMatrix

end CertifiedLp
