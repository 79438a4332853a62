import Mathlib
import CertifiedLp.Proofs.Incidence.Search
import CertifiedLp.Proofs.Matrix.Layout

/-!
# Rearranging a line of a matrix

Sorting a part of a line, and moving an entry of a line into its active part or out of it. All of
this is the same for columns and rows, so it is stated for lines.
-/

namespace CertifiedLp

namespace Incidence

variable {κ : Type} [Reference κ] [DecidableEq κ] {l l' : Incidence κ} {moves : List (Move κ)}
variable {f : Nat → Nat} {position n : Nat} {part : Part}

/-- One list is a rearrangement of another one, and the moves and the counts are right. -/
structure Rearrangement (l l' : Incidence κ) (moves : List (Move κ)) (f : Nat → Nat) : Prop where
  tracked : Tracked f l.entries l'.entries moves
  perm : l'.entries.toList.Perm l.entries.toList
  counted : l.Counted → l'.Counted

theorem rearrangement_sort (hdistinct : Distinct l.entries) (hactive : l.nrActive ≤ l.size)
    (part : Part) : ∃ f, Rearrangement l (l.sort part).1 (l.sort part).2 f ∧
      ∀ i, i < l.size → (f i < l.nrActive ↔ i < l.nrActive) := by
  obtain ⟨f, htracked, hparts⟩ := tracked_sort hdistinct hactive part
  exact ⟨f, ⟨htracked, perm_sort hactive part, fun h => counted_sort h hactive part⟩, hparts⟩

theorem rearrangement_activate (hdistinct : Distinct l.entries) (hposition : position < l.size)
    (hrest : l.nrActive ≤ position) :
    Rearrangement l (l.activate position).1 (l.activate position).2
      (Equiv.swap position l.nrActive) where
  tracked := tracked_activate hdistinct hposition (by omega)
  perm := by
    rw [entries_activate]
    exact perm_swapIfInBounds hposition (Nat.lt_of_le_of_lt hrest hposition)
  counted h := counted_activate h hposition (by omega)

theorem rearrangement_deactivate (hdistinct : Distinct l.entries) (hactive : l.nrActive ≤ l.size)
    (hposition : position < l.nrActive) :
    Rearrangement l (l.deactivate position).1 (l.deactivate position).2
      (Equiv.swap position (l.nrActive - 1)) where
  tracked := tracked_deactivate hdistinct (by omega) (by omega)
  perm := by
    rw [entries_deactivate]
    exact perm_swapIfInBounds (Nat.lt_of_lt_of_le hposition hactive)
      (Nat.lt_of_lt_of_le (by omega) hactive)
  counted h := counted_deactivate h (by omega) (by omega)

end Incidence

/-- A list is that of a line, but for the names of its partners. -/
structure Grid.Shows (g : Grid) (x : Line) {κ : Type} (name : κ → Line) (l : Incidence κ) :
    Prop where
  injective : Function.Injective name
  cells : g.cells x = l.entries.map (Entry.map name)
  nrActive : g.nrActive x = l.nrActive

namespace Grid.Shows

variable {g : Grid} {x : Line} {κ : Type} {name : κ → Line} {l : Incidence κ}

theorem size (h : g.Shows x name l) : l.size = (g.cells x).size := by
  rw [h.cells, Array.size_map, Incidence.size]

theorem distinct (h : g.Shows x name l) (hg : g.Mirrored) : Distinct l.entries := by
  intro i j e e' hi hj hpartner
  have hcell {i : Nat} {e : Entry κ} (hi : l.entries[i]? = some e) :
      (g.cells x)[i]? = some (e.map name) := by
    rw [h.cells, Array.getElem?_map, hi, Option.map_some]
  exact hg.distinct x (hcell hi) (hcell hj) (congrArg name hpartner)

theorem cell (h : g.Shows x name l) (i : Nat) :
    g.cell x i = (l.entries[i]?).map (Entry.map name) := by
  rw [Grid.cell, h.cells, Array.getElem?_map]

end Grid.Shows

namespace ConstraintMatrix

variable {m m' m'' : ConstraintMatrix} {c : ColumnRef} {r : RowRef} {row : Row} {x y : Line}
variable {f g : Nat → Nat} {n i : Nat} {E : LpError → ConstraintMatrix → Prop}

theorem shows_column (m : ConstraintMatrix) (c : ColumnRef) :
    m.grid.Shows (.column c) Line.row (m.column c).entries := ⟨Line.row_injective, rfl, rfl⟩

theorem shows_row (hrow : m.row? r = some row) :
    m.grid.Shows (.row r) Line.column row.entries :=
  ⟨Line.column_injective, cells_row hrow, nrActive_row hrow⟩

/-- The entries of a line of a matrix were rearranged, and nothing else changed. -/
structure Rearranged (m m' : ConstraintMatrix) (x : Line) (f : Nat → Nat) : Prop where
  grid : m.grid.Rearranges m'.grid x f
  without : m'.without .entries = m.without .entries
  counted : (∀ y, m.CountedAt y) → ∀ y, m'.CountedAt y

/-- Rearrange the entries of a line. -/
def rearrange (x : Line)
    (F : {κ : Type} → [Reference κ] → Incidence κ → Incidence κ × List (Move κ)) : MatrixM Unit :=
  match x with
  | .column c => rearrangeColumn c F
  | .row r => rearrangeRow r F

theorem heard_of_tracked {es' : Array (Entry Line)} {moves : List (Move Line)}
    (hm : m.grid.Mirrored) (h : Tracked f (m.grid.cells x) es' moves) : m.Heard moves := by
  intro move hmem
  obtain ⟨i, ⟨y, v, link⟩, he, hpartner, hlink⟩ := h.truthful hmem
  obtain rfl : link = some move.counterpart := hlink
  obtain rfl : y = move.partner := hpartner
  exact ⟨_, hm.back he, rfl⟩

/-- An operation that is right on every list that looks like a line is right on that line. -/
theorem ends_replace
    {F : {κ : Type} → [Reference κ] → Incidence κ → Incidence κ × List (Move κ)}
    {P : Array (Entry Line) → Nat → List (Move Line) → Prop} (hx : m.Has x)
    (hF : ∀ {κ : Type} [Reference κ] [DecidableEq κ] (name : κ → Line) (l : Incidence κ),
      m.grid.Shows x name l → m.Heard ((F l).2.map (Move.map name)) ∧
        (l.Counted → (F l).1.Counted) ∧
          P ((F l).1.entries.map (Entry.map name)) (F l).1.nrActive ((F l).2.map (Move.map name))) :
    Ends (rearrange x F) m (fun _ m' => ∃ moves, m.Replaced m' x moves ∧
      (m.CountedAt x → m'.CountedAt x) ∧ P (m'.grid.cells x) (m'.grid.nrActive x) moves) E := by
  cases x with
  | column c =>
    obtain ⟨hheard, hcounted, hP⟩ := hF Line.row (m.column c).entries (shows_column m c)
    refine (ends_rearrangeColumn hx hheard).mono_ok ?_
    rintro _ m' ⟨hreplaced, hentries⟩
    refine ⟨_, hreplaced, fun h => ?_, ?_⟩
    · rw [CountedAt, hentries]
      exact hcounted h
    · rw [← hentries] at hP
      exact hP
  | row r =>
    obtain ⟨row, hrow⟩ := Option.isSome_iff_exists.mp hx
    obtain ⟨hheard, hcounted, hP⟩ := hF Line.column row.entries (shows_row hrow)
    refine (ends_rearrangeRow hrow hheard).mono_ok ?_
    rintro _ m' ⟨hreplaced, row', hrow', hentries⟩
    refine ⟨_, hreplaced, fun h row'' hrow'' => ?_, ?_⟩
    · rw [hrow'] at hrow''
      cases hrow''
      rw [hentries]
      exact hcounted (h row hrow)
    · rw [← hentries] at hP
      rw [cells_row hrow', nrActive_row hrow']
      exact hP

/-- A rearrangement of every list that looks like a line is one of that line. -/
theorem ends_rearrange
    {F : {κ : Type} → [Reference κ] → Incidence κ → Incidence κ × List (Move κ)}
    {P : (Nat → Nat) → Prop} (hm : m.grid.Mirrored) (hx : m.Has x)
    (hF : ∀ {κ : Type} [Reference κ] [DecidableEq κ] (name : κ → Line) (l : Incidence κ),
      m.grid.Shows x name l →
        ∃ f, l.Rearrangement (F l).1 (F l).2 f ∧ (F l).1.nrActive = n ∧ P f) :
    Ends (rearrange x F) m
      (fun _ m' => ∃ f, m.Rearranged m' x f ∧ m'.grid.nrActive x = n ∧ P f) E := by
  refine (ends_replace (P := fun es n' moves => ∃ f, Tracked f (m.grid.cells x) es moves ∧
    es.toList.Perm (m.grid.cells x).toList ∧ n' = n ∧ P f) hx fun name l hl => ?_).mono_ok ?_
  · obtain ⟨f, h, hn, hP⟩ := hF name l hl
    have htracked := h.tracked.map hl.injective
    rw [← hl.cells] at htracked
    refine ⟨heard_of_tracked hm htracked, h.counted, f, htracked, ?_, hn, hP⟩
    rw [hl.cells, Array.toList_map, Array.toList_map]
    exact h.perm.map _
  · rintro _ m' ⟨moves, hreplaced, hself, f, htracked, hperm, hn, hP⟩
    refine ⟨f, ⟨hreplaced.tells.rearranges hm htracked hperm, hreplaced.without,
      fun hcounted y => ?_⟩, hn, hP⟩
    by_cases hy : y = x
    · subst hy
      exact hself (hcounted y)
    · exact hreplaced.counted y hy (hcounted y)

/-- Sorting a part keeps the entries in their parts. -/
theorem ends_sort (hm : m.grid.Wired) (hx : m.Has x) (part : Part) :
    Ends (rearrange x (·.sort part)) m (fun _ m' => ∃ f, m.Rearranged m' x f ∧
      m'.grid.nrActive x = m.grid.nrActive x ∧
      ∀ i, i < (m.grid.cells x).size → (f i < m.grid.nrActive x ↔ i < m.grid.nrActive x)) E := by
  refine ends_rearrange hm.mirrored hx fun name l hl => ?_
  have hactive : l.nrActive ≤ l.size := by
    rw [← hl.nrActive, hl.size]
    exact hm.bounded x
  obtain ⟨f, hf, hparts⟩ :=
    Incidence.rearrangement_sort (hl.distinct hm.mirrored) hactive part
  refine ⟨f, hf, ?_, ?_⟩
  · rw [Incidence.nrActive_sort, hl.nrActive]
  · rw [← hl.size, hl.nrActive]
    exact hparts

/-- Moving an entry into the active part leaves all others in their parts. -/
theorem ends_activate (hm : m.grid.Mirrored) (hx : m.Has x) (hi : i < (m.grid.cells x).size)
    (hrest : m.grid.nrActive x ≤ i) :
    Ends (rearrange x (·.activate i)) m (fun _ m' => ∃ f, m.Rearranged m' x f ∧
      m'.grid.nrActive x = m.grid.nrActive x + 1 ∧ f i = m.grid.nrActive x ∧
      (∀ j, j ≠ i → j ≠ m.grid.nrActive x → f j = j) ∧ f (m.grid.nrActive x) = i) E := by
  refine ends_rearrange hm hx fun name l hl => ?_
  rw [← hl.size] at hi
  rw [hl.nrActive] at hrest
  refine ⟨_, Incidence.rearrangement_activate (hl.distinct hm) hi hrest, ?_, ?_, ?_, ?_⟩
  · rw [Incidence.nrActive_activate, hl.nrActive]
  · rw [Equiv.swap_apply_left, hl.nrActive]
  · intro j hji hjn
    rw [hl.nrActive] at hjn
    exact Equiv.swap_apply_of_ne_of_ne hji hjn
  · rw [hl.nrActive, Equiv.swap_apply_right]

/-- Moving an entry out of the active part leaves all others in their parts. -/
theorem ends_deactivate (hm : m.grid.Mirrored) (hx : m.Has x)
    (hbounded : m.grid.nrActive x ≤ (m.grid.cells x).size) (hi : i < m.grid.nrActive x) :
    Ends (rearrange x (·.deactivate i)) m (fun _ m' => ∃ f, m.Rearranged m' x f ∧
      m'.grid.nrActive x = m.grid.nrActive x - 1 ∧ f i = m.grid.nrActive x - 1 ∧
      (∀ j, j ≠ i → j ≠ m.grid.nrActive x - 1 → f j = j) ∧ f (m.grid.nrActive x - 1) = i) E := by
  refine ends_rearrange hm hx fun name l hl => ?_
  rw [← hl.size, hl.nrActive] at hbounded
  rw [hl.nrActive] at hi
  refine ⟨_, Incidence.rearrangement_deactivate (hl.distinct hm) hbounded hi, ?_, ?_, ?_, ?_⟩
  · rw [Incidence.nrActive_deactivate, hl.nrActive]
  · rw [Equiv.swap_apply_left, hl.nrActive]
  · intro j hji hjn
    rw [hl.nrActive] at hjn
    exact Equiv.swap_apply_of_ne_of_ne hji hjn
  · rw [hl.nrActive, Equiv.swap_apply_right]

/-- Moving an entry to the other part leaves all others in their parts. -/
theorem ends_shift (hm : m.grid.Mirrored) (hx : m.Has x)
    (hbounded : m.grid.nrActive x ≤ (m.grid.cells x).size) (hi : i < (m.grid.cells x).size)
    {entering : Bool} (hpart : i < m.grid.nrActive x ↔ entering = false) :
    Ends (rearrange x (shift entering i)) m (fun _ m' => ∃ f, m.Rearranged m' x f ∧
      m'.grid.nrActive x ≤ (m'.grid.cells x).size ∧
      ∀ j, j < (m.grid.cells x).size →
        (f j < m'.grid.nrActive x ↔ if j = i then entering = true else j < m.grid.nrActive x)) E := by
  cases entering with
  | true =>
    have hrest : m.grid.nrActive x ≤ i := by simpa using hpart
    refine (ends_activate hm hx hi hrest).mono_ok ?_
    rintro _ m' ⟨f, hf, hn, hfi, hfj, hfn⟩
    refine ⟨f, hf, by rw [hf.grid.size_eq, hn]; omega, fun j hj => ?_⟩
    rw [hn]
    by_cases hji : j = i
    · rw [hji, hfi, if_pos rfl]
      simp
    · rw [if_neg hji]
      by_cases hjn : j = m.grid.nrActive x
      · rw [hjn, hfn]
        omega
      · rw [hfj j hji hjn]
        omega
  | false =>
    have hlt : i < m.grid.nrActive x := hpart.mpr rfl
    refine (ends_deactivate hm hx hbounded hlt).mono_ok ?_
    rintro _ m' ⟨f, hf, hn, hfi, hfj, hfn⟩
    refine ⟨f, hf, by rw [hf.grid.size_eq, hn]; omega, fun j hj => ?_⟩
    rw [hn]
    by_cases hji : j = i
    · rw [hji, hfi, if_pos rfl]
      simp
    · rw [if_neg hji]
      by_cases hjn : j = m.grid.nrActive x - 1
      · rw [hjn, hfn]
        omega
      · rw [hfj j hji hjn]
        omega

end ConstraintMatrix

end CertifiedLp
