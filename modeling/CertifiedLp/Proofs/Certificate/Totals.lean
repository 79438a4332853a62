import Mathlib
import CertifiedLp.ConstraintMatrix.Consistency
import CertifiedLp.Proofs.ActiveProgram
import CertifiedLp.Proofs.Extended

/-!
# Reading a matrix by rows and by columns

A certificate reads the coefficients between active lines once from the rows and once from the
columns. Linked entries refer to each other, so that both readings add up the same values for a
column and a row: the links are a bijection between the entries that count.
-/

namespace CertifiedLp

namespace Incidence

variable {κ : Type}

theorem activeEntries_eq_take (l : Incidence κ) :
    l.activeEntries = l.entries.toList.take l.nrActive := by
  simp [activeEntries]

theorem mem_activeEntries_iff {l : Incidence κ} {e : Entry κ} :
    e ∈ l.activeEntries ↔ ∃ i, i < l.nrActive ∧ l.entry? i = some e := by
  rw [activeEntries_eq_take, List.mem_take_iff_getElem]
  constructor
  · rintro ⟨i, hi, rfl⟩
    refine ⟨i, by omega, ?_⟩
    rw [ entry?, Array.getElem?_eq_getElem (by simpa using (by omega : i < l.entries.toList.length))]
    simp
  · rintro ⟨i, hi, he⟩
    obtain ⟨hlt, rfl⟩ := Array.getElem?_eq_some_iff.mp he
    exact ⟨i, by simp; omega, by simp⟩

variable [DecidableEq κ]

/-- What the entry at a position contributes to the total of a partner. -/
def weightAt (l : Incidence κ) (partner : κ) (position : Nat) : Rat :=
  match l.entry? position with
  | some e => if e.partner = partner then e.value.rational else 0
  | none => 0

/-- The sum of the values for a partner in the active part. -/
def activeTotal (l : Incidence κ) (partner : κ) : Rat :=
  ((l.activeEntries.filter (·.partner = partner)).map (·.value.rational)).sum

theorem activeTotal_eq_sum (l : Incidence κ) (partner : κ) :
    l.activeTotal partner = ∑ i ∈ Finset.range l.nrActive, l.weightAt partner i := by
  have hsum (n : Nat) : (((l.entries.toList.take n).filter (·.partner = partner)).map
      (·.value.rational)).sum = ∑ i ∈ Finset.range n, l.weightAt partner i := by
    induction n with
    | zero => simp
    | succ n ih =>
      rw [Finset.sum_range_succ, ← ih, List.take_add_one, List.filter_append, List.map_append,
        List.sum_append]
      congr 1
      rw [weightAt, entry?, ← Array.getElem?_toList]
      rcases l.entries.toList[n]? with _ | e
      · simp
      · by_cases h : e.partner = partner <;> simp [h]
  rw [activeTotal, activeEntries_eq_take, hsum]

end Incidence

theorem Incidence.sum_weightAt_eq {κ : Type} [DecidableEq κ] (l : Incidence κ) (partner : κ) (n : Nat) :
    ∑ i ∈ Finset.range n, l.weightAt partner i =
      ∑ i ∈ (Finset.range n).filter (fun i => ∃ e, l.entry? i = some e ∧ e.partner = partner),
        l.weightAt partner i := by
  symm
  refine Finset.sum_filter_of_ne fun i _ hne => ?_
  unfold weightAt at hne
  split at hne
  · next e he =>
    by_cases hp : e.partner = partner
    · exact ⟨e, he, hp⟩
    · simp [hp] at hne
  · exact absurd rfl hne

namespace ConstraintMatrix

/-- Linked entries refer to each other and have the same value, and an entry is in the active part
exactly when it is linked to an active line. -/
structure Agrees (m : ConstraintMatrix) : Prop where
  columnEntry : ∀ {c i e}, (m.column c).entries.entry? i = some e →
    ∃ row, m.row? e.partner = some row ∧
      (i < (m.column c).entries.nrActive ↔ e.link.isSome = true ∧ row.isActive = true) ∧
      ∀ k, e.link = some k → row.entries.entry? k = some ⟨c, e.value, some i⟩
  rowEntry : ∀ {r row k e}, m.row? r = some row → row.entries.entry? k = some e →
    (k < row.entries.nrActive ↔ e.link.isSome = true ∧ (m.column e.partner).isActive = true) ∧
      ∀ i, e.link = some i → (m.column e.partner).entries.entry? i = some ⟨r, e.value, some k⟩

theorem entry?_mem_zipIdx {κ : Type} {l : Incidence κ} {i : Nat} {e : Entry κ}
    (h : l.entry? i = some e) : (e, i) ∈ l.entries.toList.zipIdx := by
  rw [List.mem_zipIdx_iff_getElem?]
  simpa [Incidence.entry?] using h

theorem entryAgrees_iff {κ lam : Type} [Reference lam] {line : lam} {l : Incidence κ}
    {position : Nat} {e : Entry κ} {partnerActive : Bool} {back : Incidence lam} :
    entryAgrees line l position e partnerActive back = true ↔
      (position < l.nrActive ↔ e.link.isSome = true ∧ partnerActive = true) ∧
        ∀ k, e.link = some k → back.entry? k = some ⟨line, e.value, some position⟩ := by
  rw [entryAgrees]
  rcases e with ⟨partner, value, _ | k⟩
  · simp
  · rcases hback : back.entry? k with _ | ⟨line', value', link'⟩
    · simp [hback]
    · have hline : Reference.index line' = Reference.index line ↔ line' = line :=
        ⟨Reference.index_injective, fun h => h ▸ rfl⟩
      by_cases hp : position < l.nrActive <;> cases partnerActive <;>
        simp [hback, hp, hline, and_comm, and_left_comm]

/-- What the check of a matrix finds out about its links. -/
theorem agrees_of_isConsistent {m : ConstraintMatrix} (h : m.isConsistent = true) : m.Agrees := by
  rw [isConsistent, Bool.and_eq_true, List.all_eq_true, List.all_eq_true] at h
  obtain ⟨hcolumns, hrows⟩ := h
  constructor
  · intro c i e he
    have hc : c.index < m.columns.size := by
      by_contra hc
      rw [column, Array.getD_eq_getD_getElem?, Array.getElem?_eq_none (by omega)] at he
      cases he
    have hagrees := hcolumns c (by simpa [columnRefs] using ⟨c.index, hc, rfl⟩)
    rw [columnAgrees, Bool.and_eq_true, List.all_eq_true] at hagrees
    have hentry := hagrees.2 _ (entry?_mem_zipIdx he)
    dsimp only at hentry
    split at hentry
    · cases hentry
    · next row hrow => exact ⟨row, hrow, entryAgrees_iff.mp hentry⟩
  · intro r row k e hrow he
    have hr : r ∈ m.rowRefs := by
      have hlt : r.index < m.rows.size := by
        by_contra hr
        rw [row?, Array.getElem?_eq_none (by omega)] at hrow
        cases hrow
      simpa [rowRefs, hrow] using ⟨r.index, hlt, rfl⟩
    have hagrees := hrows r hr
    rw [rowAgrees, hrow] at hagrees
    simp only [Bool.and_eq_true, List.all_eq_true] at hagrees
    exact entryAgrees_iff.mp (hagrees.2 _ (entry?_mem_zipIdx he)).2

namespace Agrees

variable {m : ConstraintMatrix} {c : ColumnRef} {r : RowRef} {row : Row}

/-- The links match the entries of an active column for an active row with those of the row for the
column, so that their values have the same sum. -/
theorem activeTotal_eq (h : m.Agrees) (hrow : m.row? r = some row) (hr : row.isActive = true)
    (hc : (m.column c).isActive = true) :
    (m.column c).entries.activeTotal r = row.entries.activeTotal c := by
  have forth {i e} (he : (m.column c).entries.entry? i = some e) (hpartner : e.partner = r)
      (hi : i < (m.column c).entries.nrActive) :
      ∃ k, e.link = some k ∧ k < row.entries.nrActive ∧
        row.entries.entry? k = some ⟨c, e.value, some i⟩ := by
    obtain ⟨row', hrow', hpart, hback⟩ := h.columnEntry he
    rw [hpartner, hrow] at hrow'
    cases hrow'
    obtain ⟨k, hk⟩ := Option.isSome_iff_exists.mp (hpart.mp hi).1
    exact ⟨k, hk, (h.rowEntry hrow (hback k hk)).1.mpr ⟨rfl, hc⟩, hback k hk⟩
  have back {k e} (he : row.entries.entry? k = some e) (hpartner : e.partner = c)
      (hk : k < row.entries.nrActive) :
      ∃ i, e.link = some i ∧ i < (m.column c).entries.nrActive ∧
        (m.column c).entries.entry? i = some ⟨r, e.value, some k⟩ := by
    obtain ⟨hpart, hlink⟩ := h.rowEntry hrow he
    obtain ⟨i, hi⟩ := Option.isSome_iff_exists.mp (hpart.mp hk).1
    have hentry := hlink i hi
    rw [hpartner] at hentry
    obtain ⟨row', hrow', hpart', -⟩ := h.columnEntry hentry
    rw [hrow] at hrow'
    cases hrow'
    exact ⟨i, hi, hpart'.mpr ⟨rfl, hr⟩, hentry⟩
  rw [Incidence.activeTotal_eq_sum, Incidence.activeTotal_eq_sum,
    (m.column c).entries.sum_weightAt_eq, row.entries.sum_weightAt_eq]
  refine Finset.sum_bij' (fun i _ => ((m.column c).entries.link? i).getD 0)
    (fun k _ => (row.entries.link? k).getD 0) ?_ ?_ ?_ ?_ ?_
  all_goals
    intro i hi
    simp only [Finset.mem_filter, Finset.mem_range] at hi
    obtain ⟨hlt, e, he, hpartner⟩ := hi
  · obtain ⟨k, hk, hlt', he'⟩ := forth he hpartner hlt
    simpa [Incidence.link?, he, hk, hlt'] using ⟨_, he', rfl⟩
  · obtain ⟨k, hk, hlt', he'⟩ := back he hpartner hlt
    simpa [Incidence.link?, he, hk, hlt'] using ⟨_, he', rfl⟩
  · obtain ⟨k, hk, -, he'⟩ := forth he hpartner hlt
    simp [Incidence.link?, he, hk, he']
  · obtain ⟨k, hk, -, he'⟩ := back he hpartner hlt
    simp [Incidence.link?, he, hk, he']
  · obtain ⟨k, hk, -, he'⟩ := forth he hpartner hlt
    simp [Incidence.link?, Incidence.weightAt, he, hk, he', hpartner]

end Agrees

end ConstraintMatrix

end CertifiedLp
