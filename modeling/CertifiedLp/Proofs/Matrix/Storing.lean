import Mathlib
import CertifiedLp.Proofs.Extended
import CertifiedLp.Proofs.Matrix.Linking

/-!
# Storing

A new coefficient is appended to one line, without a link, and gets a counterpart if that line is
active. The entries of a whole line get counterparts before the line is sent to the solver.

What two lines store for each other is their *content*, each coefficient once. Linking does not
change it.
-/

namespace CertifiedLp

namespace ConstraintMatrix

variable {m m' t : ConstraintMatrix} {c : ColumnRef} {r : RowRef} {row : Row} {x y a b : Line}
variable {i n : Nat} {v : Extended} {forth back : Multiset (Extended × Bool)}
variable {E : LpError → ConstraintMatrix → Prop}

/-! ## New coefficients -/

/-- A coefficient that two lines do not store yet can be appended to one of them. -/
theorem Sound.updated_push (hm : m.Sound) (hgrid : m'.grid = m.grid.push x ⟨y, v, none⟩)
    (hcounted : ∀ z, m'.CountedAt z) (hwithout : m'.without .entries = m.without .entries)
    (hxy : x ≠ y) (hy : m.Has y) (hv : v.isFinite = true ∧ v ≠ 0)
    (hforth : m.InOrder x → m.grid.stored x y = 0) (hback : m.grid.stored y x = 0) :
    Updated m m' x y (m.grid.stored x y + {(v, false)}) 0 := by
  have hstored : m'.grid.stored = m.storedWith x y (m.grid.stored x y + {(v, false)}) 0 := by
    funext a b
    rw [hgrid, Grid.stored_push]
    by_cases hab : a = x ∧ b = y
    · obtain ⟨rfl, rfl⟩ := hab
      rw [if_pos ⟨rfl, rfl⟩, storedWith_forth]
      rfl
    · rw [if_neg fun h => hab ⟨h.1, h.2.symm⟩, add_zero]
      by_cases hba : a = y ∧ b = x
      · obtain ⟨rfl, rfl⟩ := hba
        rw [storedWith_back hxy, hback]
      · rw [storedWith_of_ne hab hba]
  refine ⟨⟨by rw [hgrid]; exact hm.wired.push rfl, hcounted, ?_⟩, hwithout, hstored⟩
  refine hm.tidy.storedWith hwithout hstored hxy (fun h => absurd rfl h) (fun _ => hy)
    (fun w s hw => ?_) (fun w s hw => absurd hw (Multiset.notMem_zero _)) (fun hx => ?_)
    (fun _ => by simp) (fun _ _ => rfl) fun w hw => absurd hw (Multiset.notMem_zero _)
  · rcases Multiset.mem_add.mp hw with hold | hnew
    · exact hm.tidy.storable hold
    · obtain ⟨rfl, -⟩ := Prod.mk.inj (Multiset.mem_singleton.mp hnew)
      exact hv
  · rw [hforth hx, zero_add, Multiset.card_singleton]

theorem ends_checkStorable (hv : v.isFinite = true ∧ v ≠ 0)
    {Q : Unit → ConstraintMatrix → Prop} : Ends (checkStorable v) m Q E ↔ Q () m := by
  rw [checkStorable, if_neg]
  · exact Ends.pure_iff
  · simpa [Extended.isZero, Extended.isInfinite, hv.1] using hv.2

/-- Storing a coefficient in a column that has none does not fail. -/
theorem ends_insertInColumn (hm : m.Sound) (hc : m.Has (.column c)) (hrow : m.row? r = some row)
    (hv : v.isFinite = true ∧ v ≠ 0) (hforth : m.grid.stored (.column c) (.row r) = 0)
    (hback : m.grid.stored (.row r) (.column c) = 0) :
    Ends (insertInColumn c r v) m (fun _ m' => Updated m m' (.column c) (.row r)
      {(v, (m.column c).isActive)} (if (m.column c).isActive then {(v, true)} else 0)) E := by
  have hpushed : Updated m (m.pushInColumn c ⟨r, v, none⟩) (.column c) (.row r) _ 0 :=
    hm.updated_push (grid_pushInColumn hc _) (countedAt_pushInColumn hc _ hm.counted)
      (without_pushInColumn ..) (by simp) (by rw [Has, hrow]; rfl) hv (fun _ => hforth) hback
  rw [hforth, zero_add] at hpushed
  have hentry : ((m.pushInColumn c ⟨r, v, none⟩).column c).entries.entries[
      (m.column c).entries.size]? = some ⟨r, v, none⟩ := by
    rw [pushInColumn, column_modifyColumn_self hc]
    simp [Incidence.entries_push, Incidence.size]
  simp only [insertInColumn, Ends.bind_iff, ends_checkStorable hv, ends_getRow hrow, ends_getColumn,
    ends_updateColumn]
  rw [← pushInColumn]
  split
  · next hactive =>
    rw [Ends.bind_iff]
    refine Ends.mono_ok (ends_mirrorInRow hpushed.sound hentry) fun n m' hm' => ?_
    obtain ⟨hlinking, row', hrow', hlink⟩ := hm'
    simp only [Ends.bind_iff, ends_getRow hrow']
    rw [if_neg (by simpa [← Option.isSome_iff_ne_none] using hlink), hactive]
    exact hpushed.trans hlinking.updated
  · next hactive =>
    rw [Bool.not_eq_true] at hactive
    rw [hactive]
    exact hpushed

/-- Storing a coefficient in a row does not fail. A row that delays its order may have some for the
same column already. -/
theorem ends_insertInRow (hm : m.Sound) (hrow : m.row? r = some row) (hc : m.Has (.column c))
    (hv : v.isFinite = true ∧ v ≠ 0)
    (hforth : row.delayed = false → m.grid.stored (.row r) (.column c) = 0)
    (hback : m.grid.stored (.column c) (.row r) = 0) :
    Ends (insertInRow r c v) m (fun _ m' => Updated m m' (.row r) (.column c)
      (m.grid.stored (.row r) (.column c) + {(v, row.isActive)})
      (if row.isActive then {(v, true)} else 0)) E := by
  have hinorder : m.InOrder (.row r) ↔ row.delayed = false := by simp [InOrder, hrow]
  have hpushed : Updated m (m.pushInRow r ⟨c, v, none⟩) (.row r) (.column c) _ 0 :=
    hm.updated_push (grid_pushInRow hrow _) (countedAt_pushInRow hrow _ hm.counted)
      (without_pushInRow ..) (by simp) hc hv (fun h => hforth (hinorder.mp h)) hback
  have hrow' := row?_pushInRow hrow ⟨c, v, none⟩
  simp only [insertInRow, Ends.bind_iff, ends_checkStorable hv, ends_getRow hrow,
    ends_updateRow hrow]
  rw [← pushInRow]
  split
  · next hactive =>
    have horder : m.InOrder (.row r) := hm.tidy.inOrder (by rw [isActive_row hrow, hactive])
    have horder' : (m.pushInRow r ⟨c, v, none⟩).InOrder (.row r) :=
      (inOrder_congr (without_pushInRow ..) _).mpr horder
    have hentry : (row.entries.push ⟨c, v, none⟩).entries[row.entries.size]? =
        some ⟨c, v, none⟩ := by
      simp [Incidence.entries_push, Incidence.size]
    rw [Ends.bind_iff]
    refine Ends.mono_ok (ends_mirrorInColumn hpushed.sound horder' hrow' hentry) fun n m' hm' => ?_
    obtain ⟨hlinking, hlink⟩ := hm'
    simp only [Ends.bind_iff, ends_getColumn]
    rw [if_neg (by simpa [← Option.isSome_iff_ne_none] using hlink), hactive,
      hforth (hinorder.mp horder), zero_add]
    exact hpushed.trans hlinking.updated
  · next hactive =>
    rw [Bool.not_eq_true] at hactive
    rw [hactive]
    exact hpushed

/-! ## Linking whole lines -/

/-- What a column and a row store for each other, each coefficient once: a linked one is read from
the column. -/
def content (m : ConstraintMatrix) (c : ColumnRef) (r : RowRef) : Multiset Extended :=
  (m.grid.stored (.column c) (.row r)).map (·.1) +
    ((m.grid.stored (.row r) (.column c)).filter (·.2 = false)).map (·.1)

/-- The sum of the values that have counterparts. -/
def linkedTotal (s : Multiset (Extended × Bool)) : Rat :=
  ((s.filter (·.2 = true)).map (·.1.rational)).sum

/-- The part of a coefficient that both of its lines have. This is what the solver is told. -/
def linked (m : ConstraintMatrix) (c : ColumnRef) (r : RowRef) : Rat :=
  linkedTotal (m.grid.stored (.column c) (.row r))

/-- Some coefficients of a line got counterparts, and nothing else changed but the places of
entries. -/
structure Links (m : ConstraintMatrix) (x : Line) (m' : ConstraintMatrix) : Prop where
  sound : m'.Sound
  without : m'.without .entries = m.without .entries
  content : ∀ c r, m'.content c r = m.content c r
  unlinked : ∀ {x y v}, (v, false) ∈ m'.grid.stored x y → (v, false) ∈ m.grid.stored x y
  stillLinked : ∀ {x y v}, (v, true) ∈ m.grid.stored x y → (v, true) ∈ m'.grid.stored x y
  linked : ∀ {c r}, x ≠ .column c → x ≠ .row r → m'.linked c r = m.linked c r

theorem Sound.links (hm : m.Sound) (x : Line) : m.Links x m :=
  ⟨hm, rfl, fun _ _ => rfl, id, id, fun _ _ => rfl⟩

theorem Links.trans (h : m.Links x t) (h' : t.Links x m') : m.Links x m' where
  sound := h'.sound
  without := h'.without.trans h.without
  content c r := (h'.content c r).trans (h.content c r)
  unlinked hv := h.unlinked (h'.unlinked hv)
  stillLinked hv := h'.stillLinked (h.stillLinked hv)
  linked hc hr := (h'.linked hc hr).trans (h.linked hc hr)

theorem Linking.links (h : m.Linking m' x i y v) (hm : m.Tidy) (hx : m.InOrder x) (hxy : x ≠ y)
    (he : m.grid.cell x i = some ⟨y, v, none⟩) : m.Links x m' where
  sound := h.updated.sound
  without := h.updated.without
  content c r := by
    have hmem : (v, false) ∈ m.grid.stored x y :=
      Grid.mem_stored_iff.mpr ⟨i, _, he, rfl, rfl, rfl⟩
    have hforth := hm.stored_eq_singleton hx hmem
    have hback := hm.oneSided hmem
    rw [ConstraintMatrix.content, ConstraintMatrix.content, h.updated.stored]
    by_cases hxc : x = .column c ∧ y = .row r
    · obtain ⟨rfl, rfl⟩ := hxc
      rw [storedWith_forth, storedWith_back hxy, hforth, hback]
      rfl
    · by_cases hxr : x = .row r ∧ y = .column c
      · obtain ⟨rfl, rfl⟩ := hxr
        rw [storedWith_forth, storedWith_back hxy, hforth, hback]
        rfl
      · rw [storedWith_of_ne, storedWith_of_ne]
        · exact fun heq => hxr ⟨heq.1.symm, heq.2.symm⟩
        · exact fun heq => hxc ⟨heq.2.symm, heq.1.symm⟩
        · exact fun heq => hxc ⟨heq.1.symm, heq.2.symm⟩
        · exact fun heq => hxr ⟨heq.2.symm, heq.1.symm⟩
  unlinked {a b w} := by
    rw [h.updated.stored]
    exact storedWith_cases (P := fun a b s => (w, false) ∈ s → (w, false) ∈ m.grid.stored a b) hxy
      (fun hw => by simp at hw) (fun hw => by simp at hw) (fun _ _ hw => hw) a b
  stillLinked {a b w} := by
    have hmem : (v, false) ∈ m.grid.stored x y :=
      Grid.mem_stored_iff.mpr ⟨i, _, he, rfl, rfl, rfl⟩
    rw [h.updated.stored]
    refine storedWith_cases (P := fun a b s => (w, true) ∈ m.grid.stored a b → (w, true) ∈ s) hxy
      (fun hw => ?_) (fun hw => ?_) (fun _ _ hw => hw) a b
    · rw [hm.stored_eq_singleton hx hmem] at hw
      simp at hw
    · rw [hm.oneSided hmem] at hw
      exact (Multiset.notMem_zero _ hw).elim
  linked {c r} hc hr := by
    rw [ConstraintMatrix.linked, ConstraintMatrix.linked, h.updated.stored, storedWith_of_ne]
    · exact fun heq => hc heq.1.symm
    · exact fun heq => hr heq.2.symm

/-- The entries of a line from a position on still have to be linked. -/
structure LinkingUp (m : ConstraintMatrix) (x : Line) (i : Nat) (t : ConstraintMatrix) : Prop where
  links : m.Links x t
  size : (t.grid.cells x).size = (m.grid.cells x).size
  linkedBelow : t.grid.LinkedBelow x i

/-- A position that has a link, or no entry, needs no linking. -/
theorem LinkingUp.skip (h : LinkingUp m x i t) (hi : ∀ y v, t.grid.cell x i ≠ some ⟨y, v, none⟩) :
    LinkingUp m x (i + 1) t where
  links := h.links
  size := h.size
  linkedBelow j e hj he := by
    rcases Nat.lt_succ_iff_lt_or_eq.mp hj with hlt | rfl
    · exact h.linkedBelow j e hlt he
    · obtain ⟨y, v, _ | k⟩ := e
      · exact absurd he (hi y v)
      · rfl

theorem LinkingUp.next (h : LinkingUp m x i t) (hx : m.InOrder x) (hxy : x ≠ y)
    (he : t.grid.cell x i = some ⟨y, v, none⟩) (h' : t.Linking m' x i y v) :
    LinkingUp m x (i + 1) m' where
  links := h.links.trans
    (h'.links h.links.sound.tidy ((inOrder_congr h.links.without x).mpr hx) hxy he)
  size := h'.size.trans h.size
  linkedBelow := h'.linkedBelow h.linkedBelow

/-- All entries of a line are linked. -/
def FullyLinked (m : ConstraintMatrix) (x : Line) : Prop :=
  ∀ i e, m.grid.cell x i = some e → e.link.isSome = true

theorem LinkingUp.fullyLinked (h : LinkingUp m x (m.grid.cells x).size t) : t.FullyLinked x :=
  fun i e he => h.linkedBelow i e (h.size ▸ Grid.lt_size_of_cell he) he

/-- The loop over a column, for an assertion on how far it has come. -/
theorem ends_linkColumn_loop {I : Nat → ConstraintMatrix → Prop}
    (hcounted : m.CountedAt (.column c)) (hstart : I 0 m)
    (hpass : ∀ i t, I i t → (∀ y v, t.grid.cell (.column c) i ≠ some ⟨y, v, none⟩) → I (i + 1) t)
    (hmirror : ∀ i t r v, I i t → (t.column c).entries.entries[i]? = some ⟨r, v, none⟩ →
      Ends (mirrorInRow r c v i) t (fun _ t' => I (i + 1) t') E) :
    Ends (linkColumn c) m (fun _ m' => I (m.grid.cells (.column c)).size m') E := by
  have hsize : (m.column c).entries.size = (m.grid.cells (.column c)).size := by
    rw [cells_column, Array.size_map, Incidence.size]
  simp only [linkColumn, Ends.bind_iff, ends_getColumn]
  rw [Ends.ite_iff]
  constructor
  · intro _
    rw [hsize]
    simp only [Ends.bind_iff, Ends.pure_iff]
    refine Ends.forIn_range I hstart fun i t hi ht => ?_
    simp only [Ends.bind_iff, ends_getColumn, Incidence.entry?]
    have hcell := cell_column t c i
    have hstep {r : RowRef} {v : Extended} := hmirror i t r v ht
    generalize (t.column c).entries.entries[i]? = found at hcell hstep ⊢
    rcases found with _ | ⟨r, v, _ | link⟩
    · exact ⟨rfl, hpass i t ht fun y v => by simp [hcell]⟩
    · simp only [Ends.bind_iff, Ends.pure_iff]
      exact (hstep rfl).mono_ok fun _ t' h' => ⟨trivial, h'⟩
    · exact ⟨rfl, hpass i t ht fun y v => by simp [hcell, Entry.map]⟩
  · -- Without unlinked entries the loop is left out, and would pass over every position.
    intro hnone
    have hlinked (i : Nat) (y : Line) (v : Extended) :
        m.grid.cell (.column c) i ≠ some ⟨y, v, none⟩ := by
      intro he
      obtain ⟨e, he', heq⟩ := partner_of_cell_column he
      have hlink := hcounted.isSome_link (by simpa using hnone) he'
      cases e
      cases heq
      cases hlink
    have hall (i : Nat) : I i m := by
      induction i with
      | zero => exact hstart
      | succ i ih => exact hpass i m ih (hlinked i)
    exact hall _

/-- The loop over a row, for an assertion on how far it has come. -/
theorem ends_linkRow_loop {I : Nat → ConstraintMatrix → Prop} (hrow : m.row? r = some row)
    (hcounted : m.CountedAt (.row r)) (hhas : ∀ i t, I i t → t.Has (.row r)) (hstart : I 0 m)
    (hpass : ∀ i t, I i t → (∀ y v, t.grid.cell (.row r) i ≠ some ⟨y, v, none⟩) → I (i + 1) t)
    (hmirror : ∀ i t row c v, I i t → t.row? r = some row →
      row.entries.entries[i]? = some ⟨c, v, none⟩ →
        Ends (mirrorInColumn c r v i) t (fun _ t' => I (i + 1) t') E) :
    Ends (linkRow r) m (fun _ m' => I (m.grid.cells (.row r)).size m') E := by
  have hsize : row.entries.size = (m.grid.cells (.row r)).size := by
    rw [cells_row hrow, Array.size_map, Incidence.size]
  simp only [linkRow, Ends.bind_iff, ends_getRow hrow]
  rw [Ends.ite_iff]
  constructor
  · intro _
    rw [hsize]
    simp only [Ends.bind_iff, Ends.pure_iff]
    refine Ends.forIn_range I hstart fun i t hi ht => ?_
    obtain ⟨row', hrow'⟩ := Option.isSome_iff_exists.mp (hhas i t ht)
    simp only [Ends.bind_iff, ends_getRow hrow', Incidence.entry?]
    have hcell := cell_row hrow' i
    have hstep {c : ColumnRef} {v : Extended} := hmirror i t row' c v ht hrow'
    generalize row'.entries.entries[i]? = found at hcell hstep ⊢
    rcases found with _ | ⟨c, v, _ | link⟩
    · exact ⟨rfl, hpass i t ht fun y v => by simp [hcell]⟩
    · simp only [Ends.bind_iff, Ends.pure_iff]
      exact (hstep rfl).mono_ok fun _ t' h' => ⟨trivial, h'⟩
    · exact ⟨rfl, hpass i t ht fun y v => by simp [hcell, Entry.map]⟩
  · intro hnone
    have hlinked (i : Nat) (y : Line) (v : Extended) :
        m.grid.cell (.row r) i ≠ some ⟨y, v, none⟩ := by
      intro he
      obtain ⟨row', e, hrow', he', heq⟩ := partner_of_cell_row he
      rw [hrow] at hrow'
      cases hrow'
      have hlink := (hcounted row hrow).isSome_link (by simpa using hnone) he'
      cases e
      cases heq
      cases hlink
    have hall (i : Nat) : I i m := by
      induction i with
      | zero => exact hstart
      | succ i ih => exact hpass i m ih (hlinked i)
    exact hall _

theorem Sound.linkingUp (hm : m.Sound) (x : Line) : LinkingUp m x 0 m :=
  ⟨hm.links x, rfl, fun j _ hj => absurd hj (Nat.not_lt_zero j)⟩

/-- Linking a column links all of its entries, and changes no coefficient. -/
theorem ends_linkColumn (hm : m.Sound) (c : ColumnRef) :
    Ends (linkColumn c) m (fun _ m' => m.Links (.column c) m' ∧ m'.FullyLinked (.column c)) E := by
  refine (ends_linkColumn_loop (hm.counted (.column c)) (hm.linkingUp (.column c))
    (fun i t ht hi => ht.skip hi) fun i t r v ht he => ?_).mono_ok
    fun _ m' hm' => ⟨hm'.links, hm'.fullyLinked⟩
  exact (ends_mirrorInRow ht.links.sound he).mono_ok
    fun _ t' h' => ht.next trivial (by simp) (cell_of_column he) h'.1

/-- Linking a row in order links all of its entries, and changes no coefficient. -/
theorem ends_linkRow (hm : m.Sound) (hr : m.InOrder (.row r)) (hrow : m.row? r = some row) :
    Ends (linkRow r) m (fun _ m' => m.Links (.row r) m' ∧ m'.FullyLinked (.row r)) E := by
  have hhas : m.Has (.row r) := Option.isSome_iff_exists.mpr ⟨row, hrow⟩
  refine (ends_linkRow_loop hrow (hm.counted (.row r))
    (fun i t ht => (has_congr ht.links.without (.row r)).mpr hhas) (hm.linkingUp (.row r))
    (fun i t ht hi => ht.skip hi) fun i t row' c v ht hrow' he => ?_).mono_ok
    fun _ m' hm' => ⟨hm'.links, hm'.fullyLinked⟩
  have horder : t.InOrder (.row r) := (inOrder_congr ht.links.without _).mpr hr
  exact (ends_mirrorInColumn ht.links.sound horder hrow' he).mono_ok
    fun _ t' h' => ht.next hr (by simp) (cell_of_row hrow' he) h'.1

end ConstraintMatrix

end CertifiedLp
