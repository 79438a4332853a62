import Mathlib
import CertifiedLp.Proofs.Matrix.Sound

/-!
# Entering and leaving the active linear program

When a line enters or leaves, the counterparts of its entries change parts one after the other. In
between, those for the first positions of the line are where they belong, and the others are where
they were.
-/

namespace CertifiedLp

namespace Grid

variable {g g' : Grid} {x y z : Line} {i k : Nat} {v : Extended} {e : Entry Line} {f : Nat → Nat}

/-- Which entries are wanted in the active parts, after the line `x` changed its status and the
counterparts of its first `i` entries were moved. -/
def Settled (g : Grid) (x : Line) (i : Nat) (e : Entry Line) : Prop :=
  e.link.isSome = true ∧
    if e.partner = x ∧ ∀ k, e.link = some k → i ≤ k then g.isActive x = false
    else g.isActive e.partner = true

theorem settled_of_ne (he : e.partner ≠ x) : g.Settled x i e ↔ g.InUse e := by
  rw [Settled, if_neg fun h => he h.1, InUse]

theorem settled_zero (hpartner : e.partner = x) :
    g.Settled x 0 e ↔ e.link.isSome = true ∧ g.isActive x = false := by
  rw [Settled, if_pos ⟨hpartner, fun _ _ => Nat.zero_le _⟩]

theorem settled_of_lt (hpartner : e.partner = x) (hlink : e.link = some k) (hk : k < i) :
    g.Settled x i e ↔ g.isActive x = true := by
  rw [Settled, if_neg fun h => absurd (h.2 k hlink) (by omega), hlink, hpartner]
  simp

theorem settled_of_ge (hpartner : e.partner = x) (hlink : e.link = some k) (hk : i ≤ k) :
    g.Settled x i e ↔ g.isActive x = false := by
  rw [Settled, if_pos ⟨hpartner, fun k' hk' => by
    rw [hlink] at hk'
    cases hk'
    exact hk⟩, hlink]
  simp

/-- The next position matters for its counterpart only. -/
theorem settled_succ (h : ¬ (e.partner = x ∧ e.link = some i)) :
    g.Settled x (i + 1) e ↔ g.Settled x i e := by
  by_cases hpartner : e.partner = x
  · cases hlink : e.link with
    | none => simp [Settled, hlink]
    | some k =>
      have hne : k ≠ i := fun heq => h ⟨hpartner, by rw [hlink, heq]⟩
      rcases Nat.lt_or_ge k i with hlt | hge
      · rw [settled_of_lt hpartner hlink hlt, settled_of_lt hpartner hlink (by omega)]
      · rw [settled_of_ge hpartner hlink hge, settled_of_ge hpartner hlink (by omega)]
  · rw [settled_of_ne hpartner, settled_of_ne hpartner]

/-- When all counterparts were moved, every entry is where it belongs. -/
theorem parted_of_settled (hg : g.Mirrored)
    (h : g.Parted (fun _ _ => False) (g.Settled x (g.cells x).size)) :
    g.Parted (fun _ _ => False) g.InUse := by
  intro y k e he _
  rw [h y k e he id]
  by_cases hpartner : e.partner = x
  · obtain ⟨_, v, link⟩ := e
    subst hpartner
    cases link with
    | none => simp [Settled, InUse]
    | some i =>
      rw [settled_of_lt rfl rfl (lt_size_of_cell (hg.back he)), InUse]
      simp
  · exact settled_of_ne hpartner

/-- Moving one counterpart to the other part settles it. -/
theorem Rearranges.settled (h : Rearranges g g' y f) (hg : g.Mirrored)
    (hparted : g.Parted (fun _ _ => False) (g.Settled x i)) (hl : g.Linked x i y k v)
    (hparts : ∀ j, j < (g.cells y).size →
      (f j < g'.nrActive y ↔ if j = k then g.isActive x = true else j < g.nrActive y)) :
    g'.Parted (fun _ _ => False) (g'.Settled x (i + 1)) := by
  have hxy : y ≠ x := hg.ne hl
  have hactive : g'.isActive = g.isActive := h.isActive
  refine h.parted hparted (fun j e he _ => ?_) (fun _ _ _ hno => hno) fun z q e hz he => ?_
  · rw [hparts j (lt_size_of_cell he)]
    split
    · next hj =>
      subst hj
      have hback := hg.back hl
      rw [Linked, he] at hback
      cases hback
      rw [settled_of_lt (e := ⟨x, v, some i⟩) rfl rfl (Nat.lt_succ_self i), hactive]
    · next hj =>
      have hother : ¬ (e.partner = x ∧ e.link = some i) := by
        rintro ⟨hpartner, hlink⟩
        obtain ⟨p, w, l⟩ := e
        cases hpartner
        cases hlink
        have hback := hg.back he
        rw [Linked, hl] at hback
        cases hback
        exact hj rfl
      rw [settled_succ hother, hparted y j e he id, Settled, Settled, hactive]
  · have hother : ¬ (e.partner = x ∧ e.link = some i) := by
      rintro ⟨hpartner, hlink⟩
      obtain ⟨p, w, l⟩ := e
      cases hpartner
      cases hlink
      have hback := hg.back he
      rw [Linked, hl] at hback
      cases hback
      exact hz rfl
    by_cases hy : e.partner = y
    · rw [settled_of_ne (by rw [partner_retold, hy]; exact hxy),
        settled_of_ne (by rw [hy]; exact hxy), h.inUse_retold]
    · rw [retold, if_neg hy, settled_succ hother, Settled, Settled, hactive]

end Grid

namespace ConstraintMatrix

variable {m t : ConstraintMatrix} {c : ColumnRef} {r : RowRef} {row : Row} {x y : Line} {i k : Nat}
variable {position : Option Nat} {E : LpError → ConstraintMatrix → Prop}

/-- The counterparts of the first entries of a line were moved to the other parts. -/
structure Settling (m : ConstraintMatrix) (x : Line) (i : Nat) (t : ConstraintMatrix) : Prop where
  sameContent : m.SameContent t
  counted : ∀ y, t.CountedAt y
  mirrored : t.grid.Mirrored
  bounded : ∀ y, t.grid.nrActive y ≤ (t.grid.cells y).size
  size : (t.grid.cells x).size = (m.grid.cells x).size
  parted : t.grid.Parted (fun _ _ => False) (t.grid.Settled x i)

/-- Moving the counterpart of the next entry, if there is one. -/
theorem Settling.ends_step (h : Settling m x i t) :
    Ends (match t.grid.cell x i with
      | some ⟨y, _, some link⟩ => rearrange y (shift (m.grid.isActive x) link)
      | _ => pure ()) t (fun _ u => Settling m x (i + 1) u) E := by
  have hactive : t.grid.isActive = m.grid.isActive := isActive_congr h.sameContent.without
  -- A position without a link changes nothing.
  have hskip (hnone : ∀ y k v, ¬ t.grid.Linked x i y k v) : Settling m x (i + 1) t := by
    refine { h with parted := fun y k e he hno => ?_ }
    rw [h.parted y k e he hno, Grid.settled_succ]
    rintro ⟨hpartner, hlink⟩
    obtain ⟨_, v, link⟩ := e
    cases hpartner
    cases hlink
    exact hnone _ _ _ (h.mirrored.back he)
  match hcell : t.grid.cell x i with
  | none =>
    refine hskip fun y k v hl => ?_
    rw [Grid.Linked, hcell] at hl
    cases hl
  | some ⟨y, v, none⟩ =>
    refine hskip fun y k v hl => ?_
    rw [Grid.Linked, hcell] at hl
    cases hl
  | some ⟨y, v, some k⟩ =>
    have hl : t.grid.Linked x i y k v := hcell
    have hback := h.mirrored.back hl
    have hpart : k < t.grid.nrActive y ↔ m.grid.isActive x = false := by
      rw [h.parted y k _ hback id,
        Grid.settled_of_ge (e := ⟨x, v, some i⟩) rfl rfl (Nat.le_refl i), hactive]
    refine (ends_shift h.mirrored (has_of_cell hback) (h.bounded y)
      (Grid.lt_size_of_cell hback) hpart).mono_ok ?_
    rintro _ u ⟨f, hf, hbounded, hparts⟩
    refine ⟨h.sameContent.trans hf.sameContent, hf.counted h.counted, hf.grid.mirrored h.mirrored,
      fun z => ?_, by rw [hf.grid.size_eq, h.size], ?_⟩
    · by_cases hz : z = y
      · subst hz
        exact hbounded
      · rw [hf.grid.nrActive hz, hf.grid.size_eq]
        exact h.bounded z
    · refine hf.grid.settled h.mirrored h.parted hl fun j hj => ?_
      rw [hparts j hj, hactive]

theorem Settling.sound (h : Settling m x (m.grid.cells x).size t) (hm : m.Tidy) : t.Sound where
  wired := {
    mirrored := h.mirrored
    parted := Grid.parted_of_settled h.mirrored (by rw [h.size]; exact h.parted)
    bounded := h.bounded }
  counted := h.counted
  tidy := hm.congr h.sameContent.without h.sameContent.stored

/-- A line changes its status: nothing is settled yet. -/
theorem Sound.settling {m' : ConstraintMatrix} (hm : m.Sound)
    (hcells : m'.grid.cells = m.grid.cells) (hnr : m'.grid.nrActive = m.grid.nrActive)
    (hcounted : ∀ y, m'.CountedAt y) (hstatus : m'.grid.isActive x ≠ m.grid.isActive x)
    (hothers : ∀ y, y ≠ x → m'.grid.isActive y = m.grid.isActive y) :
    Settling m' x 0 m' := by
  have hcell (y : Line) (k : Nat) : m'.grid.cell y k = m.grid.cell y k := by
    rw [Grid.cell, Grid.cell, hcells]
  refine ⟨.refl _, hcounted, ?_, fun y => ?_, rfl, fun y k e he _ => ?_⟩
  · refine hm.wired.mirrored.congr fun y k z j v => ?_
    rw [Grid.Linked, Grid.Linked, hcell]
  · rw [hnr, hcells]
    exact hm.wired.bounded y
  · rw [hcell] at he
    rw [hnr, hm.wired.parted y k e he id]
    by_cases hpartner : e.partner = x
    · rw [Grid.settled_zero hpartner, Grid.InUse, hpartner]
      cases h1 : m.grid.isActive x <;> cases h2 : m'.grid.isActive x <;> simp_all
    · rw [Grid.settled_of_ne hpartner, Grid.InUse, Grid.InUse, hothers _ hpartner]

/-- The matrix after the position of a line in the active linear program was set, before any entry
moved. -/
def withActivePosition (m : ConstraintMatrix) (x : Line) (position : Option Nat) :
    ConstraintMatrix :=
  match x with
  | .column c => m.modifyColumn c ({ · with activePosition := position })
  | .row r => m.modifyRow r ({ · with activePosition := position })

section WithActivePosition

variable (hx : m.Has x) (position : Option Nat)

include hx

theorem cells_withActivePosition : (m.withActivePosition x position).grid.cells = m.grid.cells := by
  funext y
  cases x with
  | column c =>
    cases y with
    | column d =>
      by_cases hd : c = d
      · subst hd
        rw [cells_column, cells_column, withActivePosition, column_modifyColumn_self hx]
      · rw [cells_column, cells_column, withActivePosition, column_modifyColumn_of_ne hd]
    | row s => rfl
  | row r =>
    cases y with
    | column d => rfl
    | row s =>
      simp only [grid, withActivePosition, row?_modifyRow]
      split
      · rw [Option.map_map]
        rfl
      · rfl

theorem nrActive_withActivePosition :
    (m.withActivePosition x position).grid.nrActive = m.grid.nrActive := by
  funext y
  cases x with
  | column c =>
    cases y with
    | column d =>
      by_cases hd : c = d
      · subst hd
        simp only [grid, withActivePosition, column_modifyColumn_self hx]
      · simp only [grid, withActivePosition, column_modifyColumn_of_ne hd]
    | row s => rfl
  | row r =>
    cases y with
    | column d => rfl
    | row s =>
      simp only [grid, withActivePosition, row?_modifyRow]
      split
      · rw [Option.map_map]
        rfl
      · rfl

theorem isActive_withActivePosition (y : Line) :
    (m.withActivePosition x position).grid.isActive y =
      if y = x then position.isSome else m.grid.isActive y := by
  cases x with
  | column c =>
    cases y with
    | column d =>
      by_cases hd : c = d
      · subst hd
        simp only [grid, withActivePosition, column_modifyColumn_self hx, if_true, Column.isActive]
      · rw [if_neg fun heq => hd (by cases heq; rfl)]
        simp only [grid, withActivePosition, column_modifyColumn_of_ne hd]
    | row s =>
      rw [if_neg (by simp)]
      rfl
  | row r =>
    obtain ⟨row, hrow⟩ := Option.isSome_iff_exists.mp hx
    cases y with
    | column d =>
      rw [if_neg (by simp)]
      rfl
    | row s =>
      simp only [grid, withActivePosition, row?_modifyRow]
      by_cases hs : r = s
      · subst hs
        rw [if_pos rfl, if_pos rfl, hrow]
        rfl
      · rw [if_neg hs, if_neg fun heq => hs (by cases heq; rfl)]

theorem countedAt_withActivePosition (hm : ∀ y, m.CountedAt y) (y : Line) :
    (m.withActivePosition x position).CountedAt y := by
  cases x with
  | column c =>
    cases y with
    | column d =>
      by_cases hd : c = d
      · subst hd
        rw [CountedAt, withActivePosition, column_modifyColumn_self hx]
        exact hm (.column c)
      · rw [CountedAt, withActivePosition, column_modifyColumn_of_ne hd]
        exact hm (.column d)
    | row s => exact hm (.row s)
  | row r =>
    cases y with
    | column d => exact hm (.column d)
    | row s =>
      intro row hrow
      rw [withActivePosition, row?_modifyRow] at hrow
      split at hrow
      · obtain ⟨row, hold, rfl⟩ := Option.map_eq_some_iff.mp hrow
        exact hm (.row s) row hold
      · exact hm (.row s) row hrow

end WithActivePosition

theorem inOrder_withActivePosition (hx : m.Has x) (position : Option Nat) (y : Line) :
    (m.withActivePosition x position).InOrder y ↔ m.InOrder y := by
  cases y with
  | column d => exact Iff.rfl
  | row s =>
    cases x with
    | column c => exact Iff.rfl
    | row r =>
      rw [InOrder, InOrder, withActivePosition, row?_modifyRow]
      split
      · cases m.row? s <;> simp
      · exact Iff.rfl

theorem has_withActivePosition (position : Option Nat) (y : Line) :
    (m.withActivePosition x position).Has y ↔ m.Has y := by
  cases x with
  | column c => cases y <;> simp [Has, withActivePosition, modifyColumn, row?]
  | row r =>
    cases y with
    | column d => exact Iff.rfl
    | row s =>
      rw [Has, Has, withActivePosition, row?_modifyRow]
      split
      · rw [Option.isSome_map]
      · rfl

theorem stored_withActivePosition (hx : m.Has x) (position : Option Nat) :
    (m.withActivePosition x position).grid.stored = m.grid.stored := by
  funext y z
  rw [Grid.stored, Grid.stored, cells_withActivePosition hx]

theorem tidy_withActivePosition (hm : m.Tidy) (hx : m.Has x)
    (horder : position.isSome = true → m.InOrder x) : (m.withActivePosition x position).Tidy where
  has hxy := by
    rw [stored_withActivePosition hx] at hxy
    exact (has_withActivePosition ..).mpr (hm.has hxy)
  storable hv := by
    rw [stored_withActivePosition hx] at hv
    exact hm.storable hv
  single hy := by
    rw [stored_withActivePosition hx]
    exact hm.single ((inOrder_withActivePosition hx ..).mp hy)
  oneSided hv := by
    rw [stored_withActivePosition hx] at hv ⊢
    exact hm.oneSided hv
  inOrder {y} hy := by
    rw [isActive_withActivePosition hx] at hy
    rw [inOrder_withActivePosition hx]
    split at hy
    · next heq =>
      rw [heq]
      exact horder hy
    · exact hm.inOrder hy

/-- A line that keeps its status keeps all parts right. -/
theorem Sound.withActivePosition (hm : m.Sound) (hx : m.Has x)
    (hstatus : position.isSome = m.grid.isActive x) : (m.withActivePosition x position).Sound := by
  have horder (h : position.isSome = true) : m.InOrder x := hm.tidy.inOrder (hstatus.symm.trans h)
  have hgrid : (m.withActivePosition x position).grid = m.grid := by
    have hcells := cells_withActivePosition hx position
    have hnr := nrActive_withActivePosition hx position
    have hactive : (m.withActivePosition x position).grid.isActive = m.grid.isActive := by
      funext y
      rw [isActive_withActivePosition hx]
      split
      · next heq => rw [heq, hstatus]
      · rfl
    cases h : (m.withActivePosition x position).grid
    rw [h] at hcells hnr hactive
    cases hcells
    cases hnr
    cases hactive
    rfl
  exact ⟨by rw [hgrid]; exact hm.wired, countedAt_withActivePosition hx position hm.counted,
    tidy_withActivePosition hm.tidy hx horder⟩

/-- A line that changes its status settles its counterparts one by one. -/
theorem Sound.settling_withActivePosition (hm : m.Sound) (hx : m.Has x)
    (hstatus : position.isSome ≠ m.grid.isActive x) :
    Settling (m.withActivePosition x position) x 0 (m.withActivePosition x position) := by
  refine hm.settling (cells_withActivePosition hx position)
    (nrActive_withActivePosition hx position)
    (countedAt_withActivePosition hx position hm.counted) ?_ fun y hy => ?_
  · rwa [isActive_withActivePosition hx, if_pos rfl]
  · rw [isActive_withActivePosition hx, if_neg hy]

theorem ends_setColumnActivePosition (hm : m.Sound) (hc : m.Has (.column c))
    (position : Option Nat) :
    Ends (setColumnActivePosition c position) m (fun _ m' => m'.Sound ∧
      (m.withActivePosition (.column c) position).SameContent m') E := by
  simp only [setColumnActivePosition, Ends.bind_iff, ends_getColumn, ends_updateColumn]
  by_cases hstatus : position.isSome = (m.column c).isActive
  · rw [if_neg (by simp [hstatus])]
    exact ⟨hm.withActivePosition hc hstatus, .refl _⟩
  · rw [if_pos (by simpa using hstatus)]
    have hstart := hm.settling_withActivePosition hc hstatus
    have hsize : (m.column c).entries.size =
        ((m.withActivePosition (.column c) position).grid.cells (.column c)).size := by
      rw [cells_withActivePosition hc, cells_column, Array.size_map, Incidence.size]
    have hentering := isActive_withActivePosition hc position (.column c)
    rw [if_pos rfl] at hentering
    rw [hsize]
    simp only [Ends.bind_iff, Ends.pure_iff]
    refine (Ends.forIn_range (Settling (m.withActivePosition (.column c) position) (.column c))
      hstart fun i t hi ht => ?_).mono_ok fun _ t ht =>
        ⟨ht.sound (tidy_withActivePosition hm.tidy hc fun _ => trivial), ht.sameContent⟩
    have hstep := ht.ends_step (E := E)
    rw [hentering, cell_column] at hstep
    simp only [Ends.bind_iff, ends_getColumn, Incidence.entry?]
    generalize (t.column c).entries.entries[i]? = found at hstep ⊢
    rcases found with _ | ⟨r, v, _ | link⟩
    · exact ⟨rfl, hstep⟩
    · exact ⟨rfl, hstep⟩
    · simp only [Ends.bind_iff, Ends.pure_iff]
      exact Ends.mono_ok hstep fun _ u hu => ⟨trivial, hu⟩

theorem ends_setRowActivePosition (hm : m.Sound) (hr : m.Has (.row r))
    (horder : position.isSome = true → m.InOrder (.row r)) :
    Ends (setRowActivePosition r position) m (fun _ m' => m'.Sound ∧
      (m.withActivePosition (.row r) position).SameContent m') E := by
  obtain ⟨row, hrow⟩ := Option.isSome_iff_exists.mp hr
  have hactive := isActive_row hrow
  simp only [setRowActivePosition, Ends.bind_iff, ends_getRow hrow, ends_updateRow hrow]
  by_cases hstatus : position.isSome = row.isActive
  · rw [if_neg (by simp [hstatus])]
    exact ⟨hm.withActivePosition hr (hstatus.trans hactive.symm), .refl _⟩
  · rw [if_pos (by simpa using hstatus)]
    have hstart := hm.settling_withActivePosition hr
      (fun heq => hstatus (heq.trans hactive))
    have hsize : row.entries.size =
        ((m.withActivePosition (.row r) position).grid.cells (.row r)).size := by
      rw [cells_withActivePosition hr, cells_row hrow, Array.size_map, Incidence.size]
    have hentering := isActive_withActivePosition hr position (.row r)
    rw [if_pos rfl] at hentering
    rw [hsize]
    simp only [Ends.bind_iff, Ends.pure_iff]
    refine (Ends.forIn_range (Settling (m.withActivePosition (.row r) position) (.row r))
      hstart fun i t hi ht => ?_).mono_ok fun _ t ht =>
        ⟨ht.sound (tidy_withActivePosition hm.tidy hr horder), ht.sameContent⟩
    have hlt : i < (t.grid.cells (.row r)).size := by rwa [ht.size]
    obtain ⟨row', hrow'⟩ := Option.isSome_iff_exists.mp
      (has_of_cell (x := .row r) (Array.getElem?_eq_getElem hlt))
    have hstep := ht.ends_step (E := E)
    rw [hentering, cell_row hrow'] at hstep
    simp only [Ends.bind_iff, ends_getRow hrow', Incidence.entry?]
    generalize row'.entries.entries[i]? = found at hstep ⊢
    rcases found with _ | ⟨c, v, _ | link⟩
    · exact ⟨rfl, hstep⟩
    · exact ⟨rfl, hstep⟩
    · simp only [Ends.bind_iff, Ends.pure_iff]
      exact Ends.mono_ok hstep fun _ u hu => ⟨trivial, hu⟩

end ConstraintMatrix

end CertifiedLp
