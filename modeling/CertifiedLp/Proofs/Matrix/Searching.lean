import Mathlib
import CertifiedLp.ConstraintMatrix.Coefficient
import CertifiedLp.Proofs.Matrix.Ledger

/-!
# Searching a coefficient

An entry is searched only in the parts where it can be: linked entries for an active partner are in
the active part, and all others in the rest. So a search that finds nothing has shown that nothing
is stored. A row that delays its order is not sorted, and a search in it shows nothing.
-/

namespace CertifiedLp

/-! ## Where entries are -/

/-- The part of a list where an entry is, by whether its partner is active and it is linked. -/
def Part.ofEntry (partnerActive linked : Bool) : Part :=
  if linked && partnerActive then .active else .rest

/-- The candidates are the only parts where an entry can be. -/
theorem Part.ofEntry_mem_candidates {partnerActive linked : Bool} {nrUnlinked : Nat}
    (h : linked = false → 0 < nrUnlinked) :
    ofEntry partnerActive linked ∈ ConstraintMatrix.candidates partnerActive nrUnlinked := by
  cases partnerActive <;> cases linked <;> simp [ofEntry, ConstraintMatrix.candidates, h]

namespace Grid

variable {g : Grid} {x : Line} {κ : Type} [Reference κ] {name : κ → Line} {l : Incidence κ}
variable {part : Part} {partner : κ} {i : Nat} {e : Entry κ}

omit [Reference κ] in
theorem Wired.nrActive_le (h : g.Wired) (hs : g.Shows x name l) : l.nrActive ≤ l.size := by
  rw [← hs.nrActive, hs.size]
  exact h.bounded x

omit [Reference κ] in
/-- An entry is in the part where it belongs. -/
theorem Wired.mem_range (h : g.Wired) (hs : g.Shows x name l) (he : l.entries[i]? = some e)
    (hpart : Part.ofEntry (g.isActive (name e.partner)) e.link.isSome = part) :
    (l.range part).1 ≤ i ∧ i < (l.range part).2 := by
  have hcell : g.cell x i = some (e.map name) := by rw [hs.cell, he, Option.map_some]
  have hused : i < l.nrActive ↔ g.InUse (e.map name) := by
    rw [← hs.nrActive]
    exact h.parted x i _ hcell id
  have hsize : i < l.size := (Array.getElem?_eq_some_iff.mp he).1
  rw [Part.ofEntry] at hpart
  split at hpart
  · next hboth =>
    rw [Bool.and_eq_true] at hboth
    subst hpart
    exact ⟨Nat.zero_le _, hused.mpr hboth⟩
  · next hnot =>
    rw [Bool.and_eq_true] at hnot
    subst hpart
    exact ⟨Nat.le_of_not_lt fun hlt => hnot (hused.mp hlt), hsize⟩

/-- What a part can have for a partner is nothing of what is stored for it. -/
def Lacks (g : Grid) (x y : Line) (part : Part) : Prop :=
  ∀ v b, (v, b) ∈ g.stored x y → Part.ofEntry (g.isActive y) b ≠ part

/-- If nothing is found in a sorted part, then the part has no entry for the partner. -/
theorem Wired.lacks (h : g.Wired) (hs : g.Shows x name l) (hcounted : l.Counted)
    (hsorted : l.isSorted part = true) (hnone : l.find? part partner = none) :
    g.Lacks x (name partner) part := by
  intro v b hv hpart
  obtain ⟨i, e, hcell, hpartner, -, hlink⟩ := mem_stored_iff.mp hv
  rw [hs.cell, Option.map_eq_some_iff] at hcell
  obtain ⟨e', he, rfl⟩ := hcell
  obtain rfl : e'.partner = partner := hs.injective hpartner
  obtain ⟨hlow, hhigh⟩ := h.mem_range hs he (hlink ▸ hpart)
  exact Incidence.ne_of_find?_eq_none hcounted (h.nrActive_le hs) hsorted hnone he hlow hhigh rfl

/-- What no candidate has is not stored. -/
theorem stored_eq_zero_of_lacks (hs : g.Shows x name l) (hcounted : l.Counted)
    (hlacks : ∀ part ∈ ConstraintMatrix.candidates (g.isActive (name partner)) l.nrUnlinked,
      g.Lacks x (name partner) part) : g.stored x (name partner) = 0 := by
  refine Multiset.eq_zero_of_forall_notMem fun ⟨v, b⟩ hv => ?_
  refine hlacks _ (Part.ofEntry_mem_candidates fun hb => ?_) v b hv rfl
  subst hb
  obtain ⟨i, e, hcell, -, -, hlink⟩ := mem_stored_iff.mp hv
  rw [hs.cell, Option.map_eq_some_iff] at hcell
  obtain ⟨e', he, rfl⟩ := hcell
  rw [Nat.pos_iff_ne_zero]
  intro hzero
  have hlinked := hcounted.isSome_link hzero he
  rw [show e'.link.isSome = false from hlink] at hlinked
  cases hlinked

end Grid

namespace ConstraintMatrix

variable {m m' : ConstraintMatrix} {c : ColumnRef} {r : RowRef} {row : Row}
variable {E : LpError → ConstraintMatrix → Prop}

/-- What a search returned: a place and what is there, or that there is nothing. -/
def Answers {β : Type} (hit : β → ConstraintMatrix → Prop) (miss : Prop) :
    Option β → ConstraintMatrix → Prop
  | some y, t => hit y t
  | none, _ => miss

/-- A search in several places, one after the other, until something is found. -/
theorem ends_firstFound_upTo {α β : Type} {search : α → MatrixM (Option β)} {xs : List α}
    (I : List α → ConstraintMatrix → Prop) (hit : β → ConstraintMatrix → Prop) (hI : I [] m)
    (hsearch : ∀ done x rest t, xs = done ++ x :: rest → I done t →
      Ends (search x) t (fun found u => Answers hit (I (done ++ [x]) u) found u) E) :
    Ends (firstFound search xs) m (fun found u => Answers hit (I xs u) found u) E := by
  suffices hrest : ∀ done rest t, xs = done ++ rest → I done t →
      Ends (firstFound search rest) t (fun found u => Answers hit (I xs u) found u) E from
    hrest [] xs m rfl hI
  intro done rest
  induction rest generalizing done with
  | nil =>
    intro t hxs ht
    rw [firstFound, Ends.pure_iff, hxs, List.append_nil]
    exact ht
  | cons x rest ih =>
    intro t hxs ht
    rw [firstFound, Ends.bind_iff]
    refine (hsearch done x rest t hxs ht).mono_ok fun found u hu => ?_
    cases found with
    | some y => exact hu
    | none => exact ih (done ++ [x]) u (by simp [hxs]) hu

/-- A search in several places, each of which is searched in vain until something is found. -/
theorem ends_firstFound {α β : Type} {search : α → MatrixM (Option β)} {xs : List α}
    (I : ConstraintMatrix → Prop) (hit : β → ConstraintMatrix → Prop) (miss : α → Prop) (hI : I m)
    (hsearch : ∀ x ∈ xs, ∀ t, I t →
      Ends (search x) t (fun found u => I u ∧ Answers hit (miss x) found u) E) :
    Ends (firstFound search xs) m
      (fun found u => I u ∧ Answers hit (∀ x ∈ xs, miss x) found u) E := by
  refine (ends_firstFound_upTo (fun done t => I t ∧ ∀ x ∈ done, miss x)
    (fun y t => I t ∧ hit y t) ⟨hI, by simp⟩ ?_).mono_ok fun found t ht => ?_
  · rintro done x rest t rfl ⟨ht, hdone⟩
    refine (hsearch x (by simp) t ht).mono_ok fun found u hu => ?_
    cases found with
    | some y => exact hu
    | none =>
      refine ⟨hu.1, fun y hy => ?_⟩
      rcases List.mem_append.mp hy with hy | hy
      · exact hdone y hy
      · exact List.mem_singleton.mp hy ▸ hu.2
  · cases found with
    | some y => exact ht
    | none => exact ht

/-! ## Sorting before the search -/

theorem ends_tellRows_column (moves : List (Move RowRef)) (c : ColumnRef) :
    Ends (tellRows moves) m (fun _ t => t.column c = m.column c) fun _ _ => True := by
  rw [tellRows, Ends.bind_iff]
  refine Ends.forIn_keeps (fun t : ConstraintMatrix => t.column c = m.column c) rfl
    fun move _ t ht => ?_
  rw [Ends.bind_iff, ends_updateRow_iff]
  exact ⟨fun _ => ⟨rfl, ht⟩, fun _ => trivial⟩

theorem ends_tellColumns_row? (moves : List (Move ColumnRef)) (r : RowRef) :
    Ends (tellColumns moves) m (fun _ t => t.row? r = m.row? r) fun _ _ => True := by
  rw [tellColumns, Ends.bind_iff]
  refine Ends.forIn_keeps (fun t : ConstraintMatrix => t.row? r = m.row? r) rfl
    fun move _ t ht => ?_
  rw [Ends.bind_iff]
  exact ⟨rfl, ht⟩

/-- A part of a column is in order after it was sorted. -/
theorem ends_sort_column (hm : m.Sound) (hc : m.Has (.column c)) (part : Part) :
    Ends (rearrangeColumn c (·.sort part)) m (fun _ t => t.Sound ∧ m.SameContent t ∧
      (t.column c).entries.isSorted part = true) E := by
  have hsorted : Ends (rearrangeColumn c (·.sort part)) m
      (fun _ t => (t.column c).entries.isSorted part = true) fun _ _ => True := by
    simp only [rearrangeColumn, Ends.bind_iff, ends_getColumn, ends_updateColumn]
    refine (ends_tellRows_column _ c).mono_ok fun _ t ht => ?_
    rw [ht, column_modifyColumn_self hc]
    exact Incidence.isSorted_sort _ part
  have hsound := ends_sort_sound (E := E) hm hc part
  exact (hsound.and hsorted).mono (fun _ t ht => ⟨ht.1.1, ht.1.2, ht.2⟩) fun _ _ he => he.1

/-- A part of a row is in order after it was sorted. -/
theorem ends_sort_row (hm : m.Sound) (hrow : m.row? r = some row) (part : Part) :
    Ends (rearrangeRow r (·.sort part)) m (fun _ t => t.Sound ∧ m.SameContent t ∧
      ∃ row', t.row? r = some row' ∧ row'.entries.isSorted part = true) E := by
  have hsorted : Ends (rearrangeRow r (·.sort part)) m
      (fun _ t => ∃ row', t.row? r = some row' ∧ row'.entries.isSorted part = true)
      fun _ _ => True := by
    simp only [rearrangeRow, Ends.bind_iff, ends_getRow hrow, ends_updateRow hrow]
    refine (ends_tellColumns_row? _ r).mono_ok fun _ t ht => ?_
    rw [ht, row?_modifyRow, if_pos rfl, hrow]
    exact ⟨_, rfl, Incidence.isSorted_sort _ part⟩
  have hsound := ends_sort_sound (E := E) hm (x := .row r) (by rw [Has, hrow]; rfl) part
  exact (hsound.and hsorted).mono (fun _ t ht => ⟨ht.1.1, ht.1.2, ht.2⟩) fun _ _ he => he.1

/-! ## Searching one list -/

/-- A column has an entry for a row at a position. -/
def ColumnHas (c : ColumnRef) (r : RowRef) (p : Nat) (m : ConstraintMatrix) : Prop :=
  ∃ v link, (m.column c).entries.entries[p]? = some ⟨r, v, link⟩

/-- A row has an entry for a column at a position. -/
def RowHas (r : RowRef) (c : ColumnRef) (p : Nat) (m : ConstraintMatrix) : Prop :=
  ∃ row v link, m.row? r = some row ∧ row.entries.entries[p]? = some ⟨c, v, link⟩

theorem SameContent.row_eq (h : m.SameContent m') (hrow : m.row? r = some row) :
    ∃ row', m'.row? r = some row' ∧ row'.isActive = row.isActive ∧ row'.delayed = row.delayed ∧
      row'.isLocked = row.isLocked := by
  obtain ⟨row', hrow', hsame⟩ := row_eq_of_without h.without hrow
  exact ⟨row', hrow', Forgetting.row_congr Row.isActive hsame fun _ => rfl,
    Forgetting.row_congr Row.delayed hsame fun _ => rfl,
    Forgetting.row_congr Row.isLocked hsame fun _ => rfl⟩

theorem SameContent.lacks (h : m.SameContent m') {x y : Line} {part : Part} :
    m'.grid.Lacks x y part ↔ m.grid.Lacks x y part := by
  rw [Grid.Lacks, Grid.Lacks, h.stored, isActive_congr h.without]

/-- What a column has for a row is found, wherever it is in the list. -/
theorem ends_findInColumn (hm : m.Sound) (hc : m.Has (.column c)) (hrow : m.row? r = some row) :
    Ends (findInColumn c r) m (fun found t => (t.Sound ∧ m.SameContent t) ∧
      Answers (ColumnHas c r) (m.grid.stored (.column c) (.row r) = 0) found t) E := by
  simp only [findInColumn, Ends.bind_iff, ends_getRow hrow, ends_getColumn]
  refine (ends_firstFound (E := E) (fun t => t.Sound ∧ m.SameContent t) (ColumnHas c r)
    (m.grid.Lacks (.column c) (.row r)) ⟨hm, .refl m⟩
    fun part _ t ht => ?_).mono_ok fun found t ht => ⟨ht.1, ?_⟩
  · simp only [Ends.bind_iff]
    refine (ends_sort_column (E := E) ht.1 ((has_congr ht.2.without _).mpr hc) part).mono_ok
      fun _ u hu => ?_
    obtain ⟨hsound, hcontent, hsorted⟩ := hu
    have hsame : m.SameContent u := ht.2.trans hcontent
    have hshows := u.shows_column c
    refine ⟨⟨hsound, hsame⟩, ?_⟩
    cases hfound : (u.column c).entries.find? part r with
    | some p =>
      obtain ⟨-, -, e, he, rfl⟩ :=
        Incidence.getElem?_of_find? (hsound.wired.nrActive_le hshows) hfound
      exact ⟨e.value, e.link, he⟩
    | none =>
      exact hsame.lacks.mp (hsound.wired.lacks hshows (hsound.counted (.column c)) hsorted hfound)
  · cases found with
    | some p => exact ht.2
    | none =>
      refine Grid.stored_eq_zero_of_lacks (m.shows_column c) (hm.counted (.column c)) ?_
      rw [isActive_row hrow]
      exact ht.2

/-- What a row in order has for a column is found, wherever it is in the list. -/
theorem ends_findInRow (hm : m.Sound) (hrow : m.row? r = some row) :
    Ends (findInRow r c) m (fun found t => (t.Sound ∧ m.SameContent t) ∧
      Answers (RowHas r c) (row.delayed = false → m.grid.stored (.row r) (.column c) = 0) found t)
      E := by
  simp only [findInRow, Ends.bind_iff, ends_getRow hrow, ends_getColumn]
  refine (ends_firstFound (E := E) (fun t => t.Sound ∧ m.SameContent t) (RowHas r c)
    (fun part => row.delayed = false → m.grid.Lacks (.row r) (.column c) part)
    ⟨hm, .refl m⟩ fun part _ t ht => ?_).mono_ok fun found t ht => ⟨ht.1, ?_⟩
  · obtain ⟨row₁, hrow₁, -⟩ := ht.2.row_eq hrow
    have hsearch : Ends (do
        rearrangeRow r (·.sort part)
        return (← getRow r).entries.find? part c) t (fun found u => (u.Sound ∧ m.SameContent u) ∧
          Answers (RowHas r c) (row.delayed = false → m.grid.Lacks (.row r) (.column c) part)
            found u) E := by
      rw [Ends.bind_iff]
      refine (ends_sort_row (E := E) ht.1 hrow₁ part).mono_ok fun _ u hu => ?_
      obtain ⟨hsound, hcontent, row₂, hrow₂, hsorted⟩ := hu
      have hsame : m.SameContent u := ht.2.trans hcontent
      have hshows := shows_row hrow₂
      simp only [Ends.bind_iff, ends_getRow hrow₂, Ends.pure_iff]
      refine ⟨⟨hsound, hsame⟩, ?_⟩
      cases hfound : row₂.entries.find? part c with
      | some p =>
        obtain ⟨-, -, e, he, rfl⟩ :=
          Incidence.getElem?_of_find? (hsound.wired.nrActive_le hshows) hfound
        exact ⟨row₂, e.value, e.link, hrow₂, he⟩
      | none =>
        intro _
        exact hsame.lacks.mp
          (hsound.wired.lacks hshows (hsound.counted (.row r) row₂ hrow₂) hsorted hfound)
    simp only [Ends.bind_iff, ends_getRow hrow₁]
    rw [Ends.ite_iff]
    refine ⟨fun hskip => ⟨ht, fun hdelayed => ?_⟩, fun _ => ?_⟩
    · rw [hdelayed] at hskip
      cases hskip
    · simpa only [Ends.bind_iff] using hsearch
  · cases found with
    | some p => exact ht.2
    | none =>
      exact fun hdelayed => Grid.stored_eq_zero_of_lacks (shows_row hrow)
        (hm.counted (.row r) row hrow) fun part hpart => ht.2 part hpart hdelayed

/-! ## Locating a coefficient -/

/-- Where a coefficient is. An entry that is in the row only has no link. -/
inductive Located (m : ConstraintMatrix) (c : ColumnRef) (r : RowRef) :
    Option Nat × Option Nat → Prop where
  | inColumn {p : Nat} {v : Extended} {link : Option Nat}
      (he : (m.column c).entries.entries[p]? = some ⟨r, v, link⟩) : Located m c r (some p, link)
  | inRow {row : Row} {q : Nat} {v : Extended} (hrow : m.row? r = some row)
      (he : row.entries.entries[q]? = some ⟨c, v, none⟩) : Located m c r (none, some q)
  | nowhere (hcolumn : m.grid.stored (.column c) (.row r) = 0)
      (hrow : m.InOrder (.row r) → m.grid.stored (.row r) (.column c) = 0) :
      Located m c r (none, none)

/-- An entry of a row has no link if the column has nothing that it could lead to. -/
theorem Sound.link_eq_none (hm : m.Sound) (hrow : m.row? r = some row) {q : Nat} {v : Extended}
    {link : Option Nat} (he : row.entries.entries[q]? = some ⟨c, v, link⟩)
    (hcolumn : m.grid.stored (.column c) (.row r) = 0) : link = none := by
  cases link with
  | none => rfl
  | some k =>
    have hlinked : m.grid.Linked (.row r) q (.column c) k v := by
      rw [Grid.Linked, cell_row hrow, he]
      rfl
    exact absurd hcolumn (stored_ne_zero (hm.wired.mirrored.back hlinked))

theorem ends_locate (hm : m.Sound) (hc : m.Has (.column c)) (hrow : m.row? r = some row) :
    Ends (locate c r) m (fun found t => (t.Sound ∧ m.SameContent t) ∧ Located t c r found) E := by
  rw [locate, Ends.bind_iff]
  refine (ends_findInColumn hm hc hrow).mono_ok fun found t ht => ?_
  obtain ⟨⟨hsound, hsame⟩, hanswer⟩ := ht
  cases found with
  | some p =>
    obtain ⟨v, link, he⟩ := hanswer
    simp only [Ends.bind_iff, ends_getColumn, Ends.pure_iff]
    have hlink : (t.column c).entries.link? p = link := by
      rw [Incidence.link?, Incidence.entry?, he, Option.bind_some]
    rw [hlink]
    exact ⟨⟨hsound, hsame⟩, .inColumn he⟩
  | none =>
    obtain ⟨row₁, hrow₁, -, hdelayed, -⟩ := hsame.row_eq hrow
    simp only [Ends.bind_iff, Ends.pure_iff]
    refine (ends_findInRow hsound hrow₁).mono_ok fun found u hu => ?_
    obtain ⟨⟨hsound', hsame'⟩, hanswer'⟩ := hu
    have hcolumn : u.grid.stored (.column c) (.row r) = 0 := by
      rw [hsame'.stored, hsame.stored]
      exact hanswer
    refine ⟨⟨hsound', hsame.trans hsame'⟩, ?_⟩
    cases found with
    | some q =>
      obtain ⟨row₂, v, link, hrow₂, he⟩ := hanswer'
      obtain rfl := hsound'.link_eq_none hrow₂ he hcolumn
      exact .inRow hrow₂ he
    | none =>
      refine .nowhere hcolumn fun horder => ?_
      rw [hsame'.stored]
      refine hanswer' ?_
      exact (inOrder_congr hsame'.without _).mp horder row₁ hrow₁

/-! ## Reading a coefficient -/

/-- The coefficient of a column in a row that exists and is in order can be read. -/
theorem ends_coefficient (hm : m.Sound) (hc : m.Has (.column c)) (hrow : m.row? r = some row)
    (hdelayed : row.delayed = false) :
    Ends (coefficient c r) m (fun value t => (t.Sound ∧ m.SameContent t) ∧
      value = .finite (m.amount c r)) E := by
  have horder : m.InOrder (.row r) := by
    intro row' hrow'
    rw [hrow] at hrow'
    cases hrow'
    exact hdelayed
  simp only [coefficient, checkOrdered, Ends.bind_iff, ends_getRow hrow, hdelayed]
  rw [if_neg (by simp)]
  simp only [Ends.pure_iff]
  refine (ends_findInColumn hm hc hrow).mono_ok fun found t ht => ?_
  obtain ⟨⟨hsound, hsame⟩, hanswer⟩ := ht
  have horder' : t.InOrder (.row r) := (inOrder_congr hsame.without _).mpr horder
  cases found with
  | some p =>
    obtain ⟨v, link, he⟩ := hanswer
    have hcell : t.grid.cell (.column c) p = some ⟨.row r, v, link⟩ := cell_of_column he
    simp only [Ends.bind_iff, ends_getColumn, Ends.pure_iff]
    refine ⟨⟨hsound, hsame⟩, ?_⟩
    rw [← hsame.amount, amount_of_content (hsound.content_of_column horder' he),
      Extended.finite_rational (hsound.tidy.value_of_cell hcell).1]
    simp [Incidence.valueAt, Incidence.entry?, he]
  | none =>
    obtain ⟨row₁, hrow₁, -, hdelayed₁, -⟩ := hsame.row_eq hrow
    simp only [Ends.bind_iff]
    refine (ends_findInRow hsound hrow₁).mono_ok fun found u hu => ?_
    obtain ⟨⟨hsound', hsame'⟩, hanswer'⟩ := hu
    have hsame'' : m.SameContent u := hsame.trans hsame'
    have horder'' : u.InOrder (.row r) := (inOrder_congr hsame''.without _).mpr horder
    have hcolumn : u.grid.stored (.column c) (.row r) = 0 := by
      rw [hsame''.stored]
      exact hanswer
    cases found with
    | some q =>
      obtain ⟨row₂, v, link, hrow₂, he⟩ := hanswer'
      obtain rfl := hsound'.link_eq_none hrow₂ he hcolumn
      have hcell : u.grid.cell (.row r) q = some ⟨.column c, v, none⟩ := cell_of_row hrow₂ he
      simp only [Ends.bind_iff, ends_getRow hrow₂, Ends.pure_iff]
      refine ⟨⟨hsound', hsame''⟩, ?_⟩
      rw [← hsame''.amount, amount_of_content (hsound'.content_of_row horder'' hrow₂ he),
        Extended.finite_rational (hsound'.tidy.value_of_cell hcell).1]
      simp [Incidence.valueAt, Incidence.entry?, he]
    | none =>
      refine ⟨⟨hsound', hsame''⟩, ?_⟩
      have hback : m.grid.stored (.row r) (.column c) = 0 := by
        rw [← hsame.stored]
        exact hanswer' (hdelayed₁.trans hdelayed)
      rw [amount_of_stored hanswer hback, Extended.zero_def]

end ConstraintMatrix

end CertifiedLp
