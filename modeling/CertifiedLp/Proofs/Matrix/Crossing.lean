import Mathlib
import CertifiedLp.Proofs.Incidence.Keyed
import CertifiedLp.Proofs.Matrix.Consistent
import CertifiedLp.Proofs.Matrix.Refusing

/-!
# Where a column crosses a row

The keys of one column and of one row, followed through the operations on their coefficient. Other
lines only learn where entries went, which does not show in keys. All of this is about runs that
return; that they do is known already, and is not shown once more.
-/

namespace CertifiedLp

open Reference (index)

/-- The coefficients of the row may change, and they can be searched. -/
def Row.isOpen (row : Row) : Bool := !row.isLocked && !row.delayed

theorem Row.isOpen_iff {row : Row} :
    row.isOpen = true ↔ row.isLocked = false ∧ row.delayed = false := by
  simp [isOpen]

namespace ConstraintMatrix

variable {m : ConstraintMatrix} {c : ColumnRef} {r : RowRef} {row : Row} {v : Extended}
variable {a b : Bool} {K K' L L' : Keys} {p q : Nat}

/-! ## Searching part by part -/

/-- Only the active part is searched before another one. -/
theorem eq_active_of_before {active : Bool} {n : Nat} {done rest : List Part} {part other : Part}
    (h : candidates active n = done ++ part :: rest) (hother : other ∈ done) : other = .active := by
  have hpairwise : (candidates active n).Pairwise fun first _ => first = .active := by
    cases active <;> by_cases hn : 0 < n <;> simp [candidates, hn]
  rw [h, List.pairwise_append] at hpairwise
  exact hpairwise.2.2 other hother part (by simp)

/-- What a search does to the keys of a line, from what it does in each part. -/
theorem ends_search {α : Type} {search : Part → MatrixM (Option α)} {active : Bool} {n k : Nat}
    {I : Keys → ConstraintMatrix → Prop} {E : LpError → ConstraintMatrix → Prop} (hI : I K m)
    (hsearch : ∀ part t {K'}, I K' t → Ends (search part) t (fun found u =>
      ∃ K'', Keys.Sifted [part] K' K'' ∧ I K'' u ∧ (found.isSome = true → k ∈ K'' part)) E) :
    Ends (firstFound search (candidates active n)) m (fun found u =>
      ∃ K', Keys.Searched k (candidates active n) K K' found.isSome ∧ I K' u) E := by
  refine (ends_firstFound_upTo (fun done t => ∃ K', Keys.Sifted done K K' ∧ I K' t)
    (fun _ t => ∃ K', Keys.Searched k (candidates active n) K K' true ∧ I K' t)
    ⟨K, .refl K, hI⟩ ?_).mono_ok fun found t ht => ?_
  · rintro done part rest t hall ⟨K', hsifted, ht⟩
    refine (hsearch part t ht).mono_ok ?_
    rintro found u ⟨K'', hsifted', hu, hfound⟩
    have hsnoc := hsifted.snoc hsifted'
    cases found with
    | none => exact ⟨K'', hsnoc, hu⟩
    | some y =>
      have hk := (hsnoc.perm part).mem_iff.mp (hfound rfl)
      refine ⟨K'', .found hsnoc hk (by simp) (fun other hother => ?_) fun other hother hne => ?_,
        hu⟩
      · rw [hall]
        rcases List.mem_append.mp hother with hdone | hlast
        · simp [hdone]
        · simp [List.mem_singleton.mp hlast]
      · rcases List.mem_append.mp hother with hdone | hlast
        · exact eq_active_of_before hall hdone
        · exact absurd (List.mem_singleton.mp hlast) hne
  · cases found with
    | none =>
      obtain ⟨K', hsifted, hK'⟩ := ht
      exact ⟨K', .inVain hsifted, hK'⟩
    | some y => exact ht

theorem ends_checkStorable_same :
    Ends (checkStorable v) m (fun _ t => t = m) fun _ _ => True := by
  rw [checkStorable, Ends.ite_iff]
  exact ⟨fun _ => trivial, fun _ => rfl⟩

/-! ## A column and a row -/

/-- A column and an open row with their keys, and whether they are active. -/
structure Crossing (c : ColumnRef) (r : RowRef) (a b : Bool) (K L : Keys) (m : ConstraintMatrix) :
    Prop where
  has : m.Has (.column c)
  columnActive : (m.column c).isActive = a
  column : (m.column c).entries.Keyed K
  row : ∃ row, m.row? r = some row ∧ row.isActive = b ∧ row.isOpen = true ∧ row.entries.Keyed L

namespace Crossing

variable (h : Crossing c r a b K L m)

include h

/-! ## Steps -/

theorem modifyColumn_self {f : Column → Column}
    (hactive : (f (m.column c)).isActive = (m.column c).isActive)
    (hf : (f (m.column c)).entries.Keyed K') : Crossing c r a b K' L (m.modifyColumn c f) where
  has := by simpa [Has, ConstraintMatrix.modifyColumn] using h.has
  columnActive := by rw [column_modifyColumn_self h.has, hactive, h.columnActive]
  column := by
    rw [column_modifyColumn_self h.has]
    exact hf
  row := h.row

theorem modifyColumn (d : ColumnRef) {f : Column → Column}
    (hactive : ∀ column, (f column).isActive = column.isActive)
    (hf : ∀ {column}, column.entries.Keyed K → (f column).entries.Keyed K) :
    Crossing c r a b K L (m.modifyColumn d f) := by
  by_cases hd : d = c
  · subst hd
    exact h.modifyColumn_self (hactive _) (hf h.column)
  · have hcolumn := column_modifyColumn_of_ne (m := m) hd f
    refine ⟨?_, hcolumn ▸ h.columnActive, hcolumn ▸ h.column, h.row⟩
    simpa [Has, ConstraintMatrix.modifyColumn] using h.has

theorem modifyRow_self {f : Row → Row} (hactive : ∀ row, (f row).isActive = row.isActive)
    (hopen : ∀ row, (f row).isOpen = row.isOpen)
    (hf : ∀ {row}, row.entries.Keyed L → (f row).entries.Keyed L') :
    Crossing c r a b K L' (m.modifyRow r f) := by
  obtain ⟨row, hrow, hrowActive, hrowOpen, hkeyed⟩ := h.row
  refine ⟨h.has, h.columnActive, h.column, f row, ?_, ?_, ?_, hf hkeyed⟩
  · rw [row?_modifyRow, if_pos rfl, hrow, Option.map_some]
  · rw [hactive, hrowActive]
  · rw [hopen, hrowOpen]

theorem modifyRow (s : RowRef) {f : Row → Row} (hactive : ∀ row, (f row).isActive = row.isActive)
    (hopen : ∀ row, (f row).isOpen = row.isOpen)
    (hf : ∀ {row}, row.entries.Keyed L → (f row).entries.Keyed L) :
    Crossing c r a b K L (m.modifyRow s f) := by
  by_cases hs : s = r
  · subst hs
    exact h.modifyRow_self hactive hopen hf
  · refine ⟨h.has, h.columnActive, h.column, ?_⟩
    rw [row?_modifyRow, if_neg hs]
    exact h.row

theorem ends_updateRow (s : RowRef) {f : Row → Row}
    (hactive : ∀ row, (f row).isActive = row.isActive)
    (hopen : ∀ row, (f row).isOpen = row.isOpen)
    (hf : ∀ {row}, row.entries.Keyed L → (f row).entries.Keyed L) :
    Ends (updateRow s f) m (fun _ => Crossing c r a b K L) fun _ _ => True := by
  rw [ends_updateRow_iff]
  exact ⟨fun _ => h.modifyRow s hactive hopen hf, fun _ => trivial⟩

theorem ends_tellRows (moves : List (Move RowRef)) :
    Ends (tellRows moves) m (fun _ => Crossing c r a b K L) fun _ _ => True := by
  rw [tellRows, Ends.bind_iff]
  refine Ends.forIn_keeps (Crossing c r a b K L) h fun move _ t ht => ?_
  rw [Ends.bind_iff]
  exact Ends.mono_ok (ht.ends_updateRow _ (fun _ => rfl) (fun _ => rfl) fun h => h.relink _ _)
    fun _ _ hu => ⟨rfl, hu⟩

theorem ends_tellColumns (moves : List (Move ColumnRef)) :
    Ends (tellColumns moves) m (fun _ => Crossing c r a b K L) fun _ _ => True := by
  rw [tellColumns, Ends.bind_iff]
  refine Ends.forIn_keeps (Crossing c r a b K L) h fun move _ t ht => ?_
  rw [Ends.bind_iff, ends_updateColumn]
  exact ⟨rfl, ht.modifyColumn _ (fun _ => rfl) fun h => h.relink _ _⟩

theorem ends_rearrangeColumn {F : Incidence RowRef → Incidence RowRef × List (Move RowRef)}
    (hF : (F (m.column c).entries).1.Keyed K') :
    Ends (rearrangeColumn c F) m (fun _ => Crossing c r a b K' L) fun _ _ => True := by
  simp only [rearrangeColumn, Ends.bind_iff, ends_getColumn, ends_updateColumn]
  exact (h.modifyColumn_self rfl hF).ends_tellRows _

theorem ends_rearrangeRow {F : Incidence ColumnRef → Incidence ColumnRef × List (Move ColumnRef)}
    (hrow : m.row? r = some row) (hF : (F row.entries).1.Keyed L') :
    Ends (rearrangeRow r F) m (fun _ => Crossing c r a b K L') fun _ _ => True := by
  simp only [rearrangeRow, Ends.bind_iff, ends_getRow hrow, ConstraintMatrix.ends_updateRow hrow]
  have hnew : Crossing c r a b K L' (m.modifyRow r ({ · with entries := (F row.entries).1 })) :=
    h.modifyRow_self (fun _ => rfl) (fun _ => rfl) fun _ => hF
  exact hnew.ends_tellColumns _

theorem ends_noteIntegrality :
    Ends (noteIntegrality c r v) m (fun _ => Crossing c r a b K L) fun _ _ => True := by
  rw [noteIntegrality, Ends.bind_iff, ends_getColumn]
  exact h.ends_updateRow r (fun _ => rfl) (fun _ => rfl) id

theorem ends_announceChange :
    Ends (announceChange c r) m (fun _ => Crossing c r a b K L) fun _ _ => True := by
  rw [announceChange, Ends.bind_iff]
  refine Ends.mono_ok (h.ends_updateRow r (fun _ => rfl) (fun _ => rfl) id) fun _ t ht => ?_
  rw [Ends.bind_iff, Ends.get_iff, Ends.bind_iff]
  obtain ⟨row', hrow', -⟩ := ht.row
  rw [ends_getRow hrow']
  split
  · rw [Ends.ite_iff]
    refine ⟨fun _ => ?_, fun _ => ?_⟩
    · rw [Ends.bind_iff]
      refine Ends.mono_ok (ht.ends_updateRow r (fun _ => rfl) (fun _ => rfl) id) fun _ u hu => ?_
      simp only [Ends.bind_iff, Ends.modify_iff]
      exact ⟨hu.has, hu.columnActive, hu.column, hu.row⟩
    · simp only [Ends.bind_iff, ends_updateColumn, Ends.modify_iff]
      have hu := ht.modifyColumn c (f := ({ · with coefficientChanged := true })) (fun _ => rfl) id
      exact ⟨hu.has, hu.columnActive, hu.column, hu.row⟩
  · exact ⟨ht.has, ht.columnActive, ht.column, ht.row⟩

/-! ## Storing -/

theorem pushInColumn (link : Option Nat) :
    Crossing c r a b (K.append (index r)) L (m.modifyColumn c fun column =>
      { column with entries := column.entries.push ⟨r, v, link⟩ }) :=
  h.modifyColumn_self rfl (h.column.push ⟨r, v, link⟩)

theorem pushInRow (link : Option Nat) :
    Crossing c r a b K (L.append (index c)) (m.modifyRow r fun row =>
      { row with entries := row.entries.push ⟨c, v, link⟩ }) :=
  h.modifyRow_self (fun _ => rfl) (fun _ => rfl) fun h => h.push ⟨c, v, link⟩

omit h in
/-- The new last entry of a column moves to the active part if its row is active. -/
theorem ends_activateInColumn (h : Crossing c r a b (K.append (index r)) L m) {active : Bool}
    (hp : p = (K .active).length + (K .rest).length) :
    Ends (if active then rearrangeColumn c (·.activate p) else pure ⟨⟩) m
      (fun _ => Crossing c r a b (K.store (index r) (some (Part.ofEntry active true))) L)
      fun _ _ => True := by
  have hlast : p + 1 = (m.column c).entries.size := by
    rw [h.column.size_eq, hp]
    simp [Keys.append, Nat.add_assoc]
  cases active with
  | true =>
    rw [if_pos rfl]
    exact h.ends_rearrangeColumn (h.column.activate hlast)
  | false =>
    rw [if_neg (by simp)]
    exact h

omit h in
theorem ends_activateInRow (h : Crossing c r a b K (L.append (index c)) m) {active : Bool}
    (hp : p = (L .active).length + (L .rest).length) :
    Ends (if active then rearrangeRow r (·.activate p) else pure ⟨⟩) m
      (fun _ => Crossing c r a b K (L.store (index c) (some (Part.ofEntry active true))))
      fun _ _ => True := by
  obtain ⟨row, hrow, -, -, hkeyed⟩ := h.row
  have hlast : p + 1 = row.entries.size := by
    rw [hkeyed.size_eq, hp]
    simp [Keys.append, Nat.add_assoc]
  cases active with
  | true =>
    rw [if_pos rfl]
    exact h.ends_rearrangeRow hrow (hkeyed.activate hlast)
  | false =>
    rw [if_neg (by simp)]
    exact h

omit h in
/-- The last entry of a row gets a counterpart in the column. -/
theorem ends_mirrorInColumn (h : Crossing c r a b K (L.append (index c)) m)
    (hq : q = (L .active).length + (L .rest).length) :
    Ends (mirrorInColumn c r v q) m
      (fun _ => Crossing c r a b (K.store (index r) (some (Part.ofEntry b true)))
        (L.store (index c) (some (Part.ofEntry a true)))) fun _ _ => True := by
  obtain ⟨row, hrow, hrowActive, -⟩ := h.row
  rw [mirrorInColumn, Ends.bind_iff]
  refine ends_checkStorable_same.mono_ok fun _ t ht => ?_
  subst ht
  simp only [Ends.bind_iff, ends_getColumn, ends_getRow hrow, ConstraintMatrix.ends_updateColumn,
    setRowLink, hrowActive, h.columnActive]
  refine Ends.mono_ok ((h.pushInColumn (v := v) (some q)).ends_updateRow r (fun _ => rfl)
    (fun _ => rfl) fun h => h.setLink _ _) fun _ t ht => ?_
  rw [Ends.when_iff]
  refine Ends.mono_ok (ht.ends_activateInColumn h.column.size_eq) fun _ t ht => ?_
  rw [Ends.when_iff]
  refine Ends.mono_ok (ht.ends_activateInRow hq) fun _ t ht => ?_
  rw [Ends.ite_iff]
  simp only [Ends.bind_iff, ends_getColumn, Ends.pure_iff]
  exact ⟨fun _ => ht, fun _ => ht⟩

omit h in
/-- The last entry of a column gets a counterpart in the row. -/
theorem ends_mirrorInRow (h : Crossing c r a b (K.append (index r)) L m)
    (hp : p = (K .active).length + (K .rest).length) :
    Ends (mirrorInRow r c v p) m
      (fun _ => Crossing c r a b (K.store (index r) (some (Part.ofEntry b true)))
        (L.store (index c) (some (Part.ofEntry a true)))) fun _ _ => True := by
  obtain ⟨row, hrow, hrowActive, -, hkeyed⟩ := h.row
  rw [mirrorInRow, Ends.bind_iff]
  refine ends_checkStorable_same.mono_ok fun _ t ht => ?_
  subst ht
  simp only [Ends.bind_iff, ends_getColumn, ends_getRow hrow, ConstraintMatrix.ends_updateRow hrow,
    ConstraintMatrix.ends_updateColumn, setColumnLink, hrowActive, h.columnActive]
  have hpushed := (h.pushInRow (v := v) (some p)).modifyColumn c
    (f := fun column => { column with entries := column.entries.setLink p (some row.entries.size) })
    (fun _ => rfl) fun h => h.setLink _ _
  rw [Ends.when_iff]
  refine Ends.mono_ok (hpushed.ends_activateInRow hkeyed.size_eq) fun _ t ht => ?_
  rw [Ends.when_iff]
  refine Ends.mono_ok (ht.ends_activateInColumn hp) fun _ t ht => ?_
  rw [Ends.ite_iff]
  obtain ⟨row', hrow', -⟩ := ht.row
  simp only [Ends.bind_iff, ends_getRow hrow', Ends.pure_iff]
  exact ⟨fun _ => ht, fun _ => ht⟩

/-- A coefficient that is stored from the column is in the row as well if the column is active. -/
theorem ends_insertInColumn :
    Ends (insertInColumn c r v) m
      (fun _ => Crossing c r a b (K.store (index r) (some (Part.ofEntry b a)))
        (L.store (index c) (if a then some .active else none))) fun _ _ => True := by
  obtain ⟨row, hrow, -⟩ := h.row
  rw [insertInColumn, Ends.bind_iff]
  refine ends_checkStorable_same.mono_ok fun _ t ht => ?_
  subst ht
  simp only [Ends.bind_iff, ends_getColumn, ends_getRow hrow, ConstraintMatrix.ends_updateColumn,
    h.columnActive]
  have hpushed := h.pushInColumn (v := v) none
  cases a with
  | false => exact hpushed
  | true =>
    rw [if_pos rfl, Ends.bind_iff]
    refine (hpushed.ends_mirrorInRow h.column.size_eq).mono_ok fun _ t ht => ?_
    obtain ⟨row', hrow', -⟩ := ht.row
    rw [Ends.bind_iff, ends_getRow hrow', Ends.ite_iff]
    exact ⟨fun _ => trivial, fun _ => ht⟩

/-- A coefficient that is stored from the row is in the column as well if the row is active. -/
theorem ends_insertInRow :
    Ends (insertInRow r c v) m
      (fun _ => Crossing c r a b (K.store (index r) (if b then some .active else none))
        (L.store (index c) (some (Part.ofEntry a b)))) fun _ _ => True := by
  obtain ⟨row, hrow, hrowActive, -, hkeyed⟩ := h.row
  rw [insertInRow, Ends.bind_iff]
  refine ends_checkStorable_same.mono_ok fun _ t ht => ?_
  subst ht
  simp only [Ends.bind_iff, ends_getRow hrow, ConstraintMatrix.ends_updateRow hrow, hrowActive]
  have hpushed := h.pushInRow (v := v) none
  cases b with
  | false => exact hpushed
  | true =>
    rw [if_pos rfl, Ends.bind_iff]
    refine (hpushed.ends_mirrorInColumn hkeyed.size_eq).mono_ok fun _ t ht => ?_
    rw [Ends.bind_iff, ends_getColumn, Ends.ite_iff]
    exact ⟨fun _ => trivial, fun _ => ht⟩

/-! ## Removing -/

theorem ends_removeFromColumn (hnodup : (K .active ++ K .rest).Nodup)
    (hkey : (K .active ++ K .rest)[p]? = some (index r)) :
    Ends (removeFromColumn c p) m (fun link t => link = (m.column c).entries.link? p ∧
      Crossing c r a b (K.drop (index r)) L t) fun _ _ => True := by
  simp only [removeFromColumn, Ends.bind_iff, ends_getColumn, Ends.pure_iff]
  exact (h.ends_rearrangeColumn (h.column.remove hnodup hkey)).mono_ok fun _ _ ht => ⟨trivial, ht⟩

theorem ends_removeFromRow (hnodup : (L .active ++ L .rest).Nodup)
    (hkey : (L .active ++ L .rest)[q]? = some (index c)) :
    Ends (removeFromRow r q) m (fun _ => Crossing c r a b K (L.drop (index c)))
      fun _ _ => True := by
  obtain ⟨row, hrow, -, -, hkeyed⟩ := h.row
  simp only [removeFromRow, Ends.bind_iff, ends_getRow hrow, Ends.pure_iff]
  exact h.ends_rearrangeRow hrow (hkeyed.remove hnodup hkey)

theorem nodup_column (hm : m.Sound) : (K .active ++ K .rest).Nodup := by
  have hdistinct := (hm.columnDistinct c).map fun _ _ => Reference.index_injective
  rw [List.map_map] at hdistinct
  rw [← h.column.numbers_eq]
  exact hdistinct

theorem nodup_row (hm : m.Sound) : (L .active ++ L .rest).Nodup := by
  obtain ⟨row, hrow, -, hopen, hkeyed⟩ := h.row
  have hordered := (Row.isOpen_iff.mp hopen).2
  have hdistinct := (hm.rowDistinct hrow hordered).map fun _ _ => Reference.index_injective
  rw [List.map_map] at hdistinct
  rw [← hkeyed.numbers_eq]
  exact hdistinct

theorem notMem_column (hnone : m.grid.stored (.column c) (.row r) = 0) (part : Part) :
    index r ∉ K part := by
  intro hmem
  obtain ⟨e, he, rfl⟩ := h.column.exists_entry hmem
  obtain ⟨i, hi⟩ := Array.mem_iff_getElem?.mp he
  exact stored_ne_zero (cell_of_column hi) hnone

theorem notMem_row (hnone : m.grid.stored (.row r) (.column c) = 0) (part : Part) :
    index c ∉ L part := by
  intro hmem
  obtain ⟨row, hrow, -, -, hkeyed⟩ := h.row
  obtain ⟨e, he, rfl⟩ := hkeyed.exists_entry hmem
  obtain ⟨i, hi⟩ := Array.mem_iff_getElem?.mp he
  exact stored_ne_zero (cell_of_row hrow hi) hnone

/-- A coefficient that was located is removed from the keys of both lines. -/
theorem ends_removeBoth {found : Option Nat × Option Nat} (hm : m.Sound)
    (hfound : Located m c r found) (hsome : (found.1.isNone && found.2.isNone) = false) :
    Ends (removeBoth c r found.1 found.2) m
      (fun _ => Crossing c r a b (K.drop (index r)) (L.drop (index c))) fun _ _ => True := by
  obtain ⟨row, hrow, -, -, hkeyed⟩ := h.row
  cases hfound with
  | @inColumn p v link he =>
    have hcell := cell_of_column he
    rw [removeBoth, Ends.bind_iff]
    refine (h.ends_removeFromColumn (h.nodup_column hm) (h.column.getElem? he)).mono_ok ?_
    rintro _ t ⟨rfl, ht⟩
    rw [show (m.column c).entries.link? p = link by
      rw [Incidence.link?, Incidence.entry?, he, Option.bind_some]]
    cases link with
    | none =>
      have hnone : m.grid.stored (.row r) (.column c) = 0 :=
        hm.tidy.oneSided (Grid.mem_stored_iff.mpr ⟨p, _, hcell, rfl, rfl, rfl⟩)
      rw [Ends.pure_iff, Keys.drop_of_notMem (h.notMem_row hnone)]
      exact ht
    | some k =>
      obtain ⟨row', hrow', he'⟩ := hm.exists_row_of_link he rfl
      obtain rfl : row = row' := Option.some.inj (hrow.symm.trans hrow')
      simp only [Ends.bind_iff, Ends.pure_iff]
      exact ht.ends_removeFromRow (h.nodup_row hm) (hkeyed.getElem? he')
  | @inRow row' q v hrow' he =>
    obtain rfl : row = row' := Option.some.inj (hrow.symm.trans hrow')
    have hnone : m.grid.stored (.column c) (.row r) = 0 :=
      hm.tidy.oneSided (Grid.mem_stored_iff.mpr ⟨q, _, cell_of_row hrow he, rfl, rfl, rfl⟩)
    rw [Keys.drop_of_notMem (h.notMem_column hnone)]
    simp only [removeBoth, Ends.bind_iff, Ends.pure_iff]
    exact h.ends_removeFromRow (h.nodup_row hm) (hkeyed.getElem? he)
  | nowhere => cases hsome

/-! ## Searching -/

/-- Searching a column sorts some of its parts. -/
theorem ends_findInColumn (hm : m.Sound) {E : LpError → ConstraintMatrix → Prop} :
    Ends (findInColumn c r) m (fun found t => ∃ K', Keys.Searched (index r)
      (candidates b (m.column c).entries.nrUnlinked) K K' found.isSome ∧
        (t.Sound ∧ m.SameContent t) ∧ Crossing c r a b K' L t) E := by
  obtain ⟨row, hrow, hrowActive, -⟩ := h.row
  simp only [findInColumn, Ends.bind_iff, ends_getRow hrow, ends_getColumn, hrowActive]
  refine ends_search (I := fun K t => (t.Sound ∧ m.SameContent t) ∧ Crossing c r a b K L t)
    ⟨⟨hm, .refl m⟩, h⟩ fun part t K' ht => ?_
  obtain ⟨⟨ht, hsame⟩, hcross⟩ := ht
  obtain ⟨K'', hsifted, hkeyed⟩ := hcross.column.sort (ht.counted (.column c)) part
  have hsort := ends_sort_column (E := fun _ _ => False) ht hcross.has part
  simp only [Ends.bind_iff, ends_getColumn, Ends.pure_iff]
  refine (hsort.and (hcross.ends_rearrangeColumn hkeyed)).mono (fun _ u hu => ?_)
    fun _ _ he => he.1.elim
  refine ⟨K'', hsifted, ⟨⟨hu.1.1, hsame.trans hu.1.2.1⟩, hu.2⟩, fun hfound => ?_⟩
  obtain ⟨p, hp⟩ := Option.isSome_iff_exists.mp hfound
  exact hu.2.column.mem_of_find? hp

/-- Searching a row sorts some of its parts. -/
theorem ends_findInRow (hm : m.Sound) (hrow : m.row? r = some row)
    {E : LpError → ConstraintMatrix → Prop} :
    Ends (findInRow r c) m (fun found t => ∃ L', Keys.Searched (index c)
      (candidates a row.entries.nrUnlinked) L L' found.isSome ∧
        (t.Sound ∧ m.SameContent t) ∧ Crossing c r a b K L' t) E := by
  obtain ⟨row', hrow', -, hopen, -⟩ := h.row
  obtain rfl : row = row' := Option.some.inj (hrow.symm.trans hrow')
  have hordered := (Row.isOpen_iff.mp hopen).2
  simp only [findInRow, Ends.bind_iff, ends_getRow hrow, ends_getColumn, h.columnActive, hordered]
  refine ends_search (I := fun L t => (t.Sound ∧ m.SameContent t) ∧ Crossing c r a b K L t)
    ⟨⟨hm, .refl m⟩, h⟩ fun part t L' ht => ?_
  obtain ⟨⟨ht, hsame⟩, hcross⟩ := ht
  obtain ⟨row₁, hrow₁, -, -, hkeyed₁⟩ := hcross.row
  obtain ⟨L'', hsifted, hkeyed⟩ := hkeyed₁.sort (ht.counted (.row r) row₁ hrow₁) part
  have hsort := ends_sort_row (E := fun _ _ => False) ht hrow₁ part
  simp only [Ends.bind_iff, ends_getRow hrow₁, Bool.false_and, Bool.false_eq_true, if_false]
  refine (hsort.and (hcross.ends_rearrangeRow hrow₁ hkeyed)).mono (fun _ u hu => ?_)
    fun _ _ he => he.1.elim
  obtain ⟨row₂, hrow₂, -, -, hkeyed₂⟩ := hu.2.row
  rw [ends_getRow hrow₂, Ends.pure_iff]
  refine ⟨L'', hsifted, ⟨⟨hu.1.1, hsame.trans hu.1.2.1⟩, hu.2⟩, fun hfound => ?_⟩
  obtain ⟨q, hq⟩ := Option.isSome_iff_exists.mp hfound
  exact hkeyed₂.mem_of_find? hq

/-- A column that has nothing for the row is searched in vain. -/
theorem ends_findInColumn_inVain (hm : m.Sound)
    (hnone : m.grid.stored (.column c) (.row r) = 0) {E : LpError → ConstraintMatrix → Prop} :
    Ends (findInColumn c r) m (fun found t => found = none ∧ ∃ K', Keys.Sifted
      (candidates b (m.column c).entries.nrUnlinked) K K' ∧
        (t.Sound ∧ m.SameContent t) ∧ Crossing c r a b K' L t) E := by
  refine (h.ends_findInColumn hm).mono_ok ?_
  rintro found t ⟨K', hsearched, ht⟩
  obtain ⟨hfound, hsifted⟩ := hsearched.of_notMem (h.notMem_column hnone)
  exact ⟨Option.not_isSome_iff_eq_none.mp (Bool.eq_false_iff.mp hfound), K', hsifted, ht⟩

/-- A row that has nothing for the column is searched in vain. -/
theorem ends_findInRow_inVain (hm : m.Sound) (hrow : m.row? r = some row)
    (hnone : m.grid.stored (.row r) (.column c) = 0) {E : LpError → ConstraintMatrix → Prop} :
    Ends (findInRow r c) m (fun found t => found = none ∧ ∃ L', Keys.Sifted
      (candidates a row.entries.nrUnlinked) L L' ∧
        (t.Sound ∧ m.SameContent t) ∧ Crossing c r a b K L' t) E := by
  refine (h.ends_findInRow hm hrow).mono_ok ?_
  rintro found t ⟨L', hsearched, ht⟩
  obtain ⟨hfound, hsifted⟩ := hsearched.of_notMem (h.notMem_row hnone)
  exact ⟨Option.not_isSome_iff_eq_none.mp (Bool.eq_false_iff.mp hfound), L', hsifted, ht⟩

/-- A deletion looks into the row only if the column has nothing. -/
theorem ends_locate (hm : m.Sound) (hrow : m.row? r = some row)
    {E : LpError → ConstraintMatrix → Prop} :
    Ends (locate c r) m (fun found t => ∃ K' L', Keys.Searched (index r)
      (candidates b (m.column c).entries.nrUnlinked) K K' found.1.isSome ∧
        (found.1.isSome = true → L' = L) ∧
        (found.1.isSome = false → Keys.Searched (index c)
          (candidates a row.entries.nrUnlinked) L L' found.2.isSome) ∧
        Crossing c r a b K' L' t) E := by
  rw [locate, Ends.bind_iff]
  refine (h.ends_findInColumn hm).mono_ok ?_
  rintro found t ⟨K', hsearched, ⟨hsound, hsame⟩, hcross⟩
  cases found with
  | some p =>
    simp only [Ends.bind_iff, ends_getColumn, Ends.pure_iff]
    exact ⟨K', L, hsearched, fun _ => rfl, fun h => by simp at h, hcross⟩
  | none =>
    obtain ⟨row', hrow', hreordered⟩ := (hsame.reordered hm hsound).row hrow
    simp only [Ends.bind_iff, Ends.pure_iff]
    refine (hcross.ends_findInRow hsound hrow').mono_ok ?_
    rintro found u ⟨L', hsearched', -, hcross'⟩
    rw [hreordered.nrUnlinked] at hsearched'
    exact ⟨K', L', hsearched, fun h => by simp at h, fun _ => hsearched', hcross'⟩

end Crossing

end ConstraintMatrix

end CertifiedLp
