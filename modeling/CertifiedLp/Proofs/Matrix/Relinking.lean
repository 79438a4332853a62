import Mathlib
import CertifiedLp.Proofs.Along
import CertifiedLp.Proofs.Matrix.Keeping
import CertifiedLp.Proofs.Matrix.Storing

/-!
# Linking again

A line is linked before it is handed to the solver, once more if the solver refused it before. A line
that is fully linked stays so when others are linked, to link it again does nothing, and to link
others does not touch the active part of its list, from which the solver is told.
-/

namespace CertifiedLp

/-- What the active part of a list says about the coefficients. -/
def Incidence.activeTerms {κ : Type} (l : Incidence κ) : List (κ × Extended) :=
  l.activeEntries.map fun e => (e.partner, e.value)

namespace Incidence

variable {κ : Type}

/-- Links are not part of what a list says. -/
theorem activeTerms_modify_link (l : Incidence κ) (i : Nat) (link : Option Nat) :
    { l with entries := l.entries.modify i ({ · with link }) }.activeTerms = l.activeTerms := by
  rw [activeTerms, activeTerms, activeEntries, activeEntries]
  refine List.ext_getElem? fun k => ?_
  simp only [List.getElem?_map, Array.getElem?_toList, Array.getElem?_extract,
    Array.getElem?_modify, Array.size_modify]
  split
  · split
    · rw [Option.map_map]
      rfl
    · rfl
  · rfl

theorem activeTerms_relink (l : Incidence κ) (i link : Nat) :
    (l.relink i link).activeTerms = l.activeTerms := l.activeTerms_modify_link i (some link)

end Incidence

namespace ConstraintMatrix

variable {m m' : ConstraintMatrix} {c d : ColumnRef} {r s : RowRef} {row : Row} {x y : Line}
variable {E : LpError → ConstraintMatrix → Prop}

/-! ## Fully linked lines -/

/-- Where lines are linked, no entry loses its link. -/
theorem Links.fullyLinked (h : m.Links x m') (hy : m.FullyLinked y) : m'.FullyLinked y := by
  intro i e he
  by_contra hnone
  have hunlinked : (e.value, false) ∈ m'.grid.stored y e.partner :=
    Grid.mem_stored_iff.mpr ⟨i, e, he, rfl, rfl, Bool.eq_false_iff.mpr hnone⟩
  obtain ⟨j, e', he', -, -, hlink⟩ := Grid.mem_stored_iff.mp (h.unlinked hunlinked)
  rw [hy j e' he'] at hlink
  cases hlink

theorem Sound.nrUnlinked_column (hm : m.Sound) (hc : m.FullyLinked (.column c)) :
    (m.column c).entries.nrUnlinked = 0 := by
  rw [(hm.counted (.column c)).unlinked, List.countP_eq_zero]
  intro e he
  obtain ⟨i, hi⟩ := List.mem_iff_getElem?.mp he
  have hsome : e.link.isSome = true := hc i _ (cell_of_column (by rwa [Array.getElem?_toList] at hi))
  rw [Option.isNone_iff_eq_none, ← Option.not_isSome_iff_eq_none]
  exact not_not.mpr hsome

theorem Sound.nrUnlinked_row (hm : m.Sound) (hrow : m.row? r = some row)
    (hr : m.FullyLinked (.row r)) : row.entries.nrUnlinked = 0 := by
  rw [(hm.counted (.row r) row hrow).unlinked, List.countP_eq_zero]
  intro e he
  obtain ⟨i, hi⟩ := List.mem_iff_getElem?.mp he
  have hsome : e.link.isSome = true := hr i _ (cell_of_row hrow (by rwa [Array.getElem?_toList] at hi))
  rw [Option.isNone_iff_eq_none, ← Option.not_isSome_iff_eq_none]
  exact not_not.mpr hsome

/-- To link a column again does nothing. -/
theorem ends_linkColumn_again (hm : m.Sound) (hc : m.FullyLinked (.column c)) :
    Ends (linkColumn c) m (fun _ t => t = m) E := by
  rw [linkColumn, Ends.bind_iff, ends_getColumn, if_neg (not_not.mpr (hm.nrUnlinked_column hc)),
    Ends.pure_iff]

theorem ends_linkRow_again (hm : m.Sound) (hrow : m.row? r = some row)
    (hr : m.FullyLinked (.row r)) : Ends (linkRow r) m (fun _ t => t = m) E := by
  rw [linkRow, Ends.bind_iff, ends_getRow hrow, if_neg (not_not.mpr (hm.nrUnlinked_row hrow hr)),
    Ends.pure_iff]

/-! ## The active parts of other lines -/

/-- The active part of the list of a column says the same. -/
def SameColumnTerms (c : ColumnRef) (m m' : ConstraintMatrix) : Prop :=
  (m'.column c).entries.activeTerms = (m.column c).entries.activeTerms

/-- The active part of the list of a row says the same. -/
def SameRowTerms (r : RowRef) (m m' : ConstraintMatrix) : Prop :=
  (m'.row? r).map (·.entries.activeTerms) = (m.row? r).map (·.entries.activeTerms)

instance : IsPreorder ConstraintMatrix (SameColumnTerms c) where
  refl _ := rfl
  trans _ _ _ h h' := h'.trans h

instance : IsPreorder ConstraintMatrix (SameRowTerms r) where
  refl _ := rfl
  trans _ _ _ h h' := h'.trans h

theorem sameColumnTerms_modifyColumn {f : Column → Column}
    (h : c ≠ d ∨ ∀ column, (f column).entries.activeTerms = column.entries.activeTerms) :
    SameColumnTerms c m (m.modifyColumn d f) := by
  rcases h with hne | hterms
  · rw [SameColumnTerms, column_modifyColumn_of_ne hne.symm]
  · exact column_modifyColumn_congr (·.entries.activeTerms) m d hterms c

theorem sameRowTerms_modifyRow {f : Row → Row}
    (h : r ≠ s ∨ ∀ row, (f row).entries.activeTerms = row.entries.activeTerms) :
    SameRowTerms r m (m.modifyRow s f) := by
  rw [SameRowTerms, row?_modifyRow]
  split
  · next heq =>
    obtain hne | hterms := h
    · exact (hne heq.symm).elim
    · rw [Option.map_map, show (·.entries.activeTerms) ∘ f = fun row => row.entries.activeTerms from
        funext hterms]
  · rfl

section Columns

/-! ### Linking a column -/

theorem columnTerms_updateRow (r : RowRef) (f : Row → Row) :
    Along (SameColumnTerms c) (updateRow r f) :=
  fun m => ends_updateRow_iff.mpr ⟨fun _ => rfl, fun _ => refl m⟩

theorem columnTerms_updateColumn {f : Column → Column}
    (h : c ≠ d ∨ ∀ column, (f column).entries.activeTerms = column.entries.activeTerms) :
    Along (SameColumnTerms c) (updateColumn d f) := .modify fun _ => sameColumnTerms_modifyColumn h

theorem columnTerms_rearrangeColumn (h : c ≠ d)
    (f : Incidence RowRef → Incidence RowRef × List (Move RowRef)) :
    Along (SameColumnTerms c) (rearrangeColumn d f) := by
  refine .bind (along_getColumn d) fun _ => ?_
  refine .bind (columnTerms_updateColumn (.inl h)) fun _ => ?_
  refine .bind (.forIn (fun _ _ => ?_) _) fun _ => .pure
  exact .bind (columnTerms_updateRow _ _) fun _ => .pure

theorem columnTerms_rearrangeRow (r : RowRef)
    (f : Incidence ColumnRef → Incidence ColumnRef × List (Move ColumnRef)) :
    Along (SameColumnTerms c) (rearrangeRow r f) := by
  refine .bind (along_getRow r) fun _ => .bind (columnTerms_updateRow r _) fun _ => ?_
  refine .bind (.forIn (fun _ _ => .bind ?_ fun _ => .pure) _) fun _ => .pure
  exact columnTerms_updateColumn (.inr fun column => column.entries.activeTerms_relink _ _)

theorem columnTerms_mirrorInRow (h : c ≠ d) (r : RowRef) (v : Extended) (i : Nat) :
    Along (SameColumnTerms c) (mirrorInRow r d v i) := by
  refine .bind (.ite .throw .pure) fun _ => ?_
  refine .bind (along_getColumn d) fun _ => .bind (along_getRow r) fun _ => ?_
  refine .bind (columnTerms_updateRow r _) fun _ => ?_
  refine .bind (columnTerms_updateColumn (.inl h)) fun _ => ?_
  refine .when (columnTerms_rearrangeRow r _) (.when (columnTerms_rearrangeColumn h _) ?_)
  exact .ite (.bind (along_getRow r) fun _ => .pure) .pure

/-- Linking a column does not touch the active parts of the lists of other columns. -/
theorem columnTerms_linkColumn (h : c ≠ d) : Along (SameColumnTerms c) (linkColumn d) := by
  refine .bind (along_getColumn d) fun _ => .ite ?_ .pure
  refine .bind (.forIn (fun i _ => .bind (along_getColumn d) fun _ => ?_) _) fun _ => .pure
  split
  · exact .bind (columnTerms_mirrorInRow h _ _ _) fun _ => .pure
  · exact .pure

end Columns

section Rows

/-! ### Linking a row -/

theorem rowTerms_updateColumn (c : ColumnRef) (f : Column → Column) :
    Along (SameRowTerms r) (updateColumn c f) := .modify fun _ => rfl

theorem rowTerms_updateRow {f : Row → Row}
    (h : r ≠ s ∨ ∀ row, (f row).entries.activeTerms = row.entries.activeTerms) :
    Along (SameRowTerms r) (updateRow s f) :=
  fun m => ends_updateRow_iff.mpr ⟨fun _ => sameRowTerms_modifyRow h, fun _ => refl m⟩

theorem rowTerms_rearrangeRow (h : r ≠ s)
    (f : Incidence ColumnRef → Incidence ColumnRef × List (Move ColumnRef)) :
    Along (SameRowTerms r) (rearrangeRow s f) := by
  refine .bind (along_getRow s) fun _ => ?_
  refine .bind (rowTerms_updateRow (.inl h)) fun _ => ?_
  refine .bind (.forIn (fun _ _ => ?_) _) fun _ => .pure
  exact .bind (rowTerms_updateColumn _ _) fun _ => .pure

theorem rowTerms_rearrangeColumn (c : ColumnRef)
    (f : Incidence RowRef → Incidence RowRef × List (Move RowRef)) :
    Along (SameRowTerms r) (rearrangeColumn c f) := by
  refine .bind (along_getColumn c) fun _ => .bind (rowTerms_updateColumn c _) fun _ => ?_
  refine .bind (.forIn (fun _ _ => .bind ?_ fun _ => .pure) _) fun _ => .pure
  exact rowTerms_updateRow (.inr fun row => row.entries.activeTerms_relink _ _)

theorem rowTerms_mirrorInColumn (h : r ≠ s) (c : ColumnRef) (v : Extended) (i : Nat) :
    Along (SameRowTerms r) (mirrorInColumn c s v i) := by
  refine .bind (.ite .throw .pure) fun _ => ?_
  refine .bind (along_getRow s) fun _ => .bind (along_getColumn c) fun _ => ?_
  refine .bind (rowTerms_updateColumn c _) fun _ => ?_
  refine .bind (rowTerms_updateRow (.inl h)) fun _ => ?_
  refine .when (rowTerms_rearrangeColumn c _) (.when (rowTerms_rearrangeRow h _) ?_)
  exact .ite (.bind (along_getColumn c) fun _ => .pure) .pure

/-- Linking a row does not touch the active parts of the lists of other rows. -/
theorem rowTerms_linkRow (h : r ≠ s) : Along (SameRowTerms r) (linkRow s) := by
  refine .bind (along_getRow s) fun _ => .ite ?_ .pure
  refine .bind (.forIn (fun i _ => .bind (along_getRow s) fun _ => ?_) _) fun _ => .pure
  split
  · exact .bind (rowTerms_mirrorInColumn h _ _ _) fun _ => .pure
  · exact .pure

end Rows

/-! ## Several lines -/

/-- Link several columns. -/
def linkColumns (m : ConstraintMatrix) (cs : List ColumnRef) : ConstraintMatrix :=
  cs.foldl (fun m c => ((linkColumn c).run.run m).2) m

/-- Link several rows. -/
def linkRows (m : ConstraintMatrix) (rs : List RowRef) : ConstraintMatrix :=
  rs.foldl (fun m r => ((linkRow r).run.run m).2) m

/-- Several lines were linked, and nothing changed but entries. -/
structure LinksAll (xs : List Line) (m m' : ConstraintMatrix) : Prop where
  sound : m'.Sound
  without : m'.without .entries = m.without .entries
  linked : ∀ x ∈ xs, m'.FullyLinked x

theorem LinksAll.concat {xs : List Line} (h : LinksAll xs m t) (hlinks : t.Links x m')
    (hx : m'.FullyLinked x) : LinksAll (xs ++ [x]) m m' := by
  refine ⟨hlinks.sound, hlinks.without.trans h.without, fun y hy => ?_⟩
  rcases List.mem_append.mp hy with hy | hy
  · exact hlinks.fullyLinked (h.linked y hy)
  · exact List.mem_singleton.mp hy ▸ hx

theorem linkColumns_concat (m : ConstraintMatrix) (cs : List ColumnRef) (c : ColumnRef) :
    m.linkColumns (cs ++ [c]) = ((linkColumn c).run.run (m.linkColumns cs)).2 := by
  rw [linkColumns, List.foldl_append]
  rfl

theorem linkRows_concat (m : ConstraintMatrix) (rs : List RowRef) (r : RowRef) :
    m.linkRows (rs ++ [r]) = ((linkRow r).run.run (m.linkRows rs)).2 := by
  rw [linkRows, List.foldl_append]
  rfl

theorem Sound.linkColumns (hm : m.Sound) (cs : List ColumnRef) :
    LinksAll (cs.map .column) m (m.linkColumns cs) := by
  induction cs using List.reverseRecOn with
  | nil => exact ⟨hm, rfl, fun x hx => (List.not_mem_nil hx).elim⟩
  | append_singleton cs c ih =>
    rw [linkColumns_concat, List.map_append]
    have hlink : Ends (linkColumn c) (m.linkColumns cs)
        (fun _ t => LinksAll (cs.map .column ++ [.column c]) m t)
        fun _ t => LinksAll (cs.map .column ++ [.column c]) m t :=
      (ends_linkColumn ih.sound c).mono_ok fun _ t ht => ih.concat ht.1 ht.2
    exact hlink.state

/-- Rows that exist and are in order. -/
theorem Sound.linkRows (hm : m.Sound) {rs : List RowRef}
    (hrs : ∀ r ∈ rs, m.InOrder (.row r) ∧ m.Has (.row r)) :
    LinksAll (rs.map .row) m (m.linkRows rs) := by
  induction rs using List.reverseRecOn with
  | nil => exact ⟨hm, rfl, fun x hx => (List.not_mem_nil hx).elim⟩
  | append_singleton rs r ih =>
    have ih := ih fun s hs => hrs s (List.mem_append_left _ hs)
    obtain ⟨horder, hhas⟩ := hrs r (List.mem_append_right _ List.mem_cons_self)
    obtain ⟨row, hrow⟩ := Option.isSome_iff_exists.mp ((has_congr ih.without (.row r)).mpr hhas)
    rw [linkRows_concat, List.map_append]
    have hlink : Ends (linkRow r) (m.linkRows rs)
        (fun _ t => LinksAll (rs.map .row ++ [.row r]) m t)
        fun _ t => LinksAll (rs.map .row ++ [.row r]) m t :=
      (ends_linkRow ih.sound ((inOrder_congr ih.without _).mpr horder) hrow).mono_ok
        fun _ t ht => ih.concat ht.1 ht.2
    exact hlink.state

/-- To link columns again does nothing. -/
theorem Sound.linkColumns_again (hm : m.Sound) {cs : List ColumnRef}
    (hcs : ∀ c ∈ cs, m.FullyLinked (.column c)) : m.linkColumns cs = m := by
  induction cs with
  | nil => rfl
  | cons c cs ih =>
    have hc : ((linkColumn c).run.run m).2 = m := by
      have hlink : Ends (linkColumn c) m (fun _ t => t = m) fun _ t => t = m :=
        ends_linkColumn_again hm (hcs c List.mem_cons_self)
      exact hlink.state (I := fun t => t = m)
    rw [ConstraintMatrix.linkColumns, List.foldl_cons, hc]
    exact ih fun d hd => hcs d (List.mem_cons_of_mem c hd)

theorem Sound.linkRows_again (hm : m.Sound) {rs : List RowRef}
    (hrs : ∀ r ∈ rs, m.FullyLinked (.row r) ∧ m.Has (.row r)) : m.linkRows rs = m := by
  induction rs with
  | nil => rfl
  | cons r rs ih =>
    obtain ⟨hlinked, hhas⟩ := hrs r List.mem_cons_self
    obtain ⟨row, hrow⟩ := Option.isSome_iff_exists.mp hhas
    have hr : ((linkRow r).run.run m).2 = m := by
      have hlink : Ends (linkRow r) m (fun _ t => t = m) fun _ t => t = m :=
        ends_linkRow_again hm hrow hlinked
      exact hlink.state (I := fun t => t = m)
    rw [ConstraintMatrix.linkRows, List.foldl_cons, hr]
    exact ih fun s hs => hrs s (List.mem_cons_of_mem r hs)

end ConstraintMatrix

end CertifiedLp
