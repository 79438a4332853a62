import Mathlib
import CertifiedLp.Proofs.Matrix.Pairs
import CertifiedLp.Proofs.Matrix.Sound

/-!
# Removing

An entry is removed from its line before its counterpart is. In between, the counterpart has a link
that leads nowhere. What the removal of the entry does is therefore stated of the matrix without
that link: nothing reads the link before it is dropped, or before the counterpart is removed too.
-/

namespace CertifiedLp

namespace Incidence

variable {κ : Type}

/-- Dropping a link that is gone changes nothing. -/
theorem setLink_setLink_none (l : Incidence κ) (position : Nat) :
    (l.setLink position none).setLink position none = l.setLink position none := by
  have hmodify : (l.entries.modify position ({ · with link := none })).modify position
      ({ · with link := none }) = l.entries.modify position ({ · with link := none }) := by
    apply Array.ext_getElem?
    intro j
    rw [Array.getElem?_modify, Array.getElem?_modify]
    split
    · cases l.entries[j]? <;> rfl
    · rfl
  have hlink : (l.setLink position none).link? position = none := by
    rw [link?, entry?, entries_setLink, Array.getElem?_modify, if_pos rfl]
    cases l.entries[position]? <;> rfl
  conv_lhs => rw [setLink]
  rw [hlink, entries_setLink, hmodify]
  conv_rhs => rw [setLink]
  rw [setLink]
  cases h : (l.link? position).isSome <;> rfl

theorem remove_setLink_none [Reference κ] (l : Incidence κ) (position : Nat) :
    (l.setLink position none).remove position = l.remove position := by
  rw [remove, remove, setLink_setLink_none]

end Incidence

namespace ConstraintMatrix

variable {m m' t : ConstraintMatrix} {c : ColumnRef} {r : RowRef} {row : Row} {x y z : Line}
variable {i j k p : Nat} {v : Extended} {e : Entry Line} {E : LpError → ConstraintMatrix → Prop}

/-! ## Dropping a link -/

/-- Drop the link of an entry. -/
def dropLink (m : ConstraintMatrix) (x : Line) (position : Nat) : ConstraintMatrix :=
  match x with
  | .column c => m.modifyColumn c fun column =>
      { column with entries := column.entries.setLink position none }
  | .row r => m.modifyRow r fun row => { row with entries := row.entries.setLink position none }

theorem without_dropLink (m : ConstraintMatrix) (x : Line) (position : Nat) :
    (m.dropLink x position).without .entries = m.without .entries := by
  cases x with
  | column c => exact without_modifyColumn _ _ fun _ => rfl
  | row r => exact without_modifyRow _ _ fun _ => rfl

theorem grid_dropLink (hx : m.Has x) (position : Nat) :
    (m.dropLink x position).grid = m.grid.modify x position ({ · with link := none }) := by
  cases x with
  | column c =>
    rw [dropLink, grid_modifyColumn_entries hx fun l => Incidence.nrActive_setLink l _ _,
      Incidence.entries_setLink, map_modify (g := ({ · with link := none })) Line.row _ _ fun _ => rfl]
    rfl
  | row r =>
    obtain ⟨row, hrow⟩ := Option.isSome_iff_exists.mp hx
    rw [dropLink, grid_modifyRow_entries hrow fun l => Incidence.nrActive_setLink l _ _,
      Incidence.entries_setLink,
      map_modify (g := ({ · with link := none })) Line.column _ _ fun _ => rfl, Grid.modify,
      cells_row hrow]

theorem countedAt_dropLink (hm : ∀ z, m.CountedAt z) (he : m.grid.cell x k = some e) (z : Line) :
    (m.dropLink x k).CountedAt z := by
  cases x with
  | column c =>
    obtain ⟨e', he', -⟩ := partner_of_cell_column he
    exact countedAt_modifyColumn_entries (F := (·.setLink k none)) (has_of_cell he) hm
      (Incidence.counted_setLink (hm (.column c)) he' none) z
  | row r =>
    obtain ⟨row, e', hrow, he', -⟩ := partner_of_cell_row he
    exact countedAt_modifyRow_entries (F := (·.setLink k none)) hrow hm
      (Incidence.counted_setLink (hm (.row r) row hrow) he' none) z

theorem modifyColumn_modifyColumn (m : ConstraintMatrix) (c : ColumnRef) (f g : Column → Column) :
    (m.modifyColumn c f).modifyColumn c g = m.modifyColumn c (g ∘ f) := by
  rw [modifyColumn, modifyColumn, modifyColumn]
  congr 1
  apply Array.ext_getElem?
  intro j
  simp only [Array.getElem?_modify]
  split
  · rw [Option.map_map]
  · rfl

theorem modifyRow_modifyRow (m : ConstraintMatrix) (r : RowRef) (f g : Row → Row) :
    (m.modifyRow r f).modifyRow r g = m.modifyRow r (g ∘ f) := by
  rw [modifyRow, modifyRow, modifyRow]
  congr 1
  apply Array.ext_getElem?
  intro j
  simp only [Array.getElem?_modify]
  split
  · rw [Option.map_map]
    congr 1
    funext row
    rw [Function.comp_apply, Option.map_map]
  · rfl

/-- An entry that is removed loses its link anyway. -/
theorem ends_remove_dropLink (hx : m.Has x) {Q : Unit → ConstraintMatrix → Prop} :
    Ends (rearrange x (·.remove k)) (m.dropLink x k) Q E ↔
      Ends (rearrange x (·.remove k)) m Q E := by
  cases x with
  | column c =>
    simp only [rearrange, rearrangeColumn, Ends.bind_iff, ends_getColumn, ends_updateColumn,
      dropLink]
    rw [column_modifyColumn_self hx, modifyColumn_modifyColumn, Incidence.remove_setLink_none]
    rfl
  | row r =>
    obtain ⟨row, hrow⟩ := Option.isSome_iff_exists.mp hx
    have hrow' : (m.dropLink (.row r) k).row? r =
        some { row with entries := row.entries.setLink k none } := by
      rw [dropLink, row?_modifyRow, if_pos rfl, hrow, Option.map_some]
    simp only [rearrange, rearrangeRow, Ends.bind_iff, ends_getRow hrow, ends_getRow hrow',
      ends_updateRow hrow, ends_updateRow hrow']
    rw [dropLink, modifyRow_modifyRow, Incidence.remove_setLink_none]
    rfl

/-! ## Removing an entry -/

/-- Drop the link of the counterpart of an entry. -/
def dropCounterpart (m : ConstraintMatrix) (e : Entry Line) : ConstraintMatrix :=
  match e.link with
  | none => m
  | some k => m.dropLink e.partner k

/-- An entry of a line was removed, and the link of its counterpart dropped. -/
structure Removed (m m' : ConstraintMatrix) (x : Line) (p : Nat) (e : Entry Line) : Prop where
  without : m'.without .entries = m.without .entries
  counted : (∀ z, m.CountedAt z) → ∀ z, m'.CountedAt z
  size : (m'.grid.cells x).size + 1 = (m.grid.cells x).size
  nrActive : m'.grid.nrActive x = if p < m.grid.nrActive x then m.grid.nrActive x - 1
    else m.grid.nrActive x
  rearranges : ∃ f, (m.grid.cut x p e).Rearranges (m'.grid.push x { e with link := none }) x f ∧
    f p = (m'.grid.cells x).size ∧
    (∀ i, i < (m.grid.cells x).size → i ≠ p →
      (f i < m'.grid.nrActive x ↔ i < m.grid.nrActive x)) ∧
    (m.grid.nrActive x ≤ p → ∀ i, i < p → f i = i)

theorem ends_remove (hm : m.grid.Mirrored) (hbounded : m.grid.nrActive x ≤ (m.grid.cells x).size)
    (he : m.grid.cell x p = some e) :
    Ends (rearrange x (·.remove p)) m (fun _ m' => m.Removed (m'.dropCounterpart e) x p e) E := by
  have hp : p < (m.grid.cells x).size := Grid.lt_size_of_cell he
  refine (ends_replace (P := fun es n moves => es.size + 1 = (m.grid.cells x).size ∧
    n = (if p < m.grid.nrActive x then m.grid.nrActive x - 1 else m.grid.nrActive x) ∧ ∃ f,
      Tracked f ((m.grid.cells x).modify p ({ · with link := none }))
        (es.push { e with link := none }) moves ∧
      (es.push { e with link := none }).toList.Perm
        ((m.grid.cells x).modify p ({ · with link := none })).toList ∧
      f p = es.size ∧
      (∀ i, i < (m.grid.cells x).size → i ≠ p → (f i < n ↔ i < m.grid.nrActive x)) ∧
      (m.grid.nrActive x ≤ p → ∀ i, i < p → f i = i)) (has_of_cell he)
    fun name l hl => ?_).mono_ok ?_
  · rw [← hl.size] at hp hbounded
    rw [hl.nrActive] at hbounded
    rw [hl.cell] at he
    obtain ⟨e', he', rfl⟩ := Option.map_eq_some_iff.mp he
    obtain ⟨f, htracked, hperm, hfp, hparts, hbelow⟩ :=
      Incidence.tracked_remove (hl.distinct hm) hbounded he'
    have hmap : ((m.grid.cells x).modify p ({ · with link := none })) =
        (l.setLink p none).entries.map (Entry.map name) := by
      rw [hl.cells, Incidence.entries_setLink]
      exact (map_modify name _ _ fun _ => rfl).symm
    have htracked' := htracked.map hl.injective
    rw [Array.map_push] at htracked'
    rw [hmap]
    refine ⟨?_, fun hcounted => Incidence.counted_remove hcounted hbounded he', ?_, ?_, f, htracked',
      ?_, ?_, ?_, ?_⟩
    · -- The moves are told to counterparts of entries that stay.
      intro move hmem
      obtain ⟨i, ⟨y, v, link⟩, hi, hpartner, hlink⟩ := htracked'.truthful hmem
      obtain rfl : link = some move.counterpart := hlink
      obtain rfl : y = move.partner := hpartner
      rw [← hmap, Array.getElem?_modify] at hi
      split at hi
      · obtain ⟨e, -, hcut⟩ := Option.map_eq_some_iff.mp hi
        exact absurd (congrArg (·.link) hcut) (by simp)
      · exact ⟨_, hm.back hi, rfl⟩
    · rw [Array.size_map, ← hl.size, ← Incidence.size, Incidence.size_remove hp]
      omega
    · rw [Incidence.nrActive_remove hp, hl.nrActive]
    · have hmapped := hperm.map (Entry.map name)
      rw [← Array.toList_map, ← Array.toList_map, Array.map_push] at hmapped
      exact hmapped
    · rw [hfp, Array.size_map, Incidence.size]
    · rw [← hl.size, hl.nrActive]
      exact hparts
    · rw [hl.nrActive]
      exact hbelow
  · rintro _ m' ⟨moves, hreplaced, hself, hsize, hn, f, htracked, hperm, hfp, hparts, hbelow⟩
    have hcounted (h : ∀ z, m.CountedAt z) (z : Line) : m'.CountedAt z := by
      by_cases hz : z = x
      · rw [hz]
        exact hself (h x)
      · exact hreplaced.counted z hz (h z)
    have hdropped : (m'.dropCounterpart e).grid = m'.grid.dropCounterpart e ∧
        ((∀ z, m.CountedAt z) → ∀ z, (m'.dropCounterpart e).CountedAt z) ∧
        (m'.dropCounterpart e).without .entries = m.without .entries := by
      obtain ⟨y, v, _ | k⟩ := e
      · exact ⟨rfl, hcounted, hreplaced.without⟩
      · have hback := hreplaced.tells.cell y k (hm.ne he)
        rw [hm.back he, Option.map_some] at hback
        exact ⟨grid_dropLink (has_of_cell hback) k, fun h => countedAt_dropLink (hcounted h) hback,
          (without_dropLink ..).trans hreplaced.without⟩
    obtain ⟨hgrid, hcounted', hwithout⟩ := hdropped
    have hcells : (m'.dropCounterpart e).grid.cells x = m'.grid.cells x := by
      rw [hgrid]
      obtain ⟨y, v, _ | k⟩ := e
      · rfl
      · exact Grid.cells_update_of_ne (hm.ne he).symm _
    have hnr : (m'.dropCounterpart e).grid.nrActive = m'.grid.nrActive := by
      rw [hgrid, Grid.dropCounterpart]
      split <;> rfl
    refine ⟨hwithout, hcounted', ?_, ?_, f, ?_, ?_, ?_, hbelow⟩
    · rw [hcells, hsize]
    · rw [hnr, hn]
    · rw [hgrid]
      exact hreplaced.tells.rearranges_cut hm he htracked hperm
    · rw [hcells, hfp]
    · rw [hnr]
      exact hparts

namespace Removed

variable (h : Removed m m' x p e) (hm : m.grid.Mirrored) (he : m.grid.cell x p = some e)

include h hm he

theorem mirrored : m'.grid.Mirrored := by
  obtain ⟨f, hf, -⟩ := h.rearranges
  exact Grid.mirrored_removed hf rfl (Grid.mirrored_cut hm he)

omit hm he in
theorem size_of_ne (hz : z ≠ x) : (m'.grid.cells z).size = (m.grid.cells z).size := by
  obtain ⟨f, hf, -⟩ := h.rearranges
  have hsize := hf.size_eq z
  rw [Grid.push, Grid.cells_update_of_ne hz] at hsize
  rw [hsize, Grid.cut]
  split
  · rfl
  · rw [Grid.disconnect, Grid.size_modify, Grid.size_modify]

omit hm he in
theorem nrActive_of_ne (hz : z ≠ x) : m'.grid.nrActive z = m.grid.nrActive z := by
  obtain ⟨f, hf, -⟩ := h.rearranges
  have hnr := hf.nrActive hz
  rw [Grid.push, Grid.nrActive_update] at hnr
  rw [hnr, Grid.cut]
  split <;> rfl

omit hm in
theorem bounded (hbounded : ∀ z, m.grid.nrActive z ≤ (m.grid.cells z).size) (z : Line) :
    m'.grid.nrActive z ≤ (m'.grid.cells z).size := by
  have hold := hbounded z
  by_cases hz : z = x
  · subst hz
    have hp := Grid.lt_size_of_cell he
    have hsize := h.size
    rw [h.nrActive]
    split <;> omega
  · rw [h.nrActive_of_ne hz, h.size_of_ne hz]
    exact hold

/-- The entries of the other lines stay where they are. -/
theorem cell_of_ne : ∃ f, ∀ z j, z ≠ x → m'.grid.cell z j = (m.grid.cell z j).map fun e' =>
    Grid.retold x f (if z = e.partner ∧ e.link = some j then { e' with link := none } else e') := by
  obtain ⟨f, hf, -⟩ := h.rearranges
  refine ⟨f, fun z j hz => ?_⟩
  have hcell := hf.cell_of_ne hz (k := j)
  rw [Grid.cell_push, if_neg fun h => hz h.1, Grid.cell_cut hm he hz, Option.map_map] at hcell
  exact hcell

/-- The entries before the one that was removed stay where they are, too. -/
theorem cell_of_lt (hrest : m.grid.nrActive x ≤ p) (hi : i < p) :
    m'.grid.cell x i = m.grid.cell x i := by
  obtain ⟨f, hf, -, -, hbelow⟩ := h.rearranges
  have hp := Grid.lt_size_of_cell he
  have hsize := h.size
  have hcut : (m.grid.cut x p e).cell x i = m.grid.cell x i := by
    rw [Grid.cell, Grid.cells_cut hm he, Array.getElem?_modify, if_neg (by omega)]
    rfl
  cases hcell : m.grid.cell x i with
  | none =>
    rw [Grid.cell, Array.getElem?_eq_none_iff] at hcell
    omega
  | some e' =>
    have hforth := hf.forth (hcut.trans hcell)
    rw [hbelow hrest i hi, Grid.cell_push, if_neg fun heq => by omega] at hforth
    exact hforth

theorem parted {exempt : Line → Nat → Prop} (hparted : m.grid.Parted exempt m.grid.InUse)
    (hexempt : ∀ j, exempt x j → j = p) : m'.grid.Parted
      (fun z j => z ≠ x ∧ (exempt z j ∨ (z = e.partner ∧ e.link = some j))) m'.grid.InUse := by
  obtain ⟨f, hf, hfp, hparts, -⟩ := h.rearranges
  obtain ⟨y, v, link⟩ := e
  have hcutParted : (m.grid.cut x p ⟨y, v, link⟩).Parted
      (fun z j => exempt z j ∨ (z = x ∧ j = p) ∨ (z = y ∧ link = some j))
      (m.grid.cut x p ⟨y, v, link⟩).InUse := by
    cases link with
    | none => exact fun z j e' he' hnot => hparted z j e' he' fun hex => hnot (.inl hex)
    | some k =>
      intro z j e' he' hnot
      refine Grid.parted_disconnect hm he hparted z j e' he' fun hex => hnot ?_
      exact hex.imp_right (.imp_right fun h => ⟨h.1, by rw [h.2]⟩)
  have hcell : (m.grid.cut x p ⟨y, v, link⟩).cell x p = some ⟨y, v, none⟩ := by
    rw [Grid.cell, Grid.cells_cut hm he, Array.getElem?_modify, if_pos rfl]
    change (m.grid.cell x p).map _ = _
    rw [he, Option.map_some]
  have hself (j : Nat) : exempt x j ∨ (x = x ∧ j = p) ∨ (x = y ∧ link = some j) → j = p := by
    rintro (hex | ⟨-, hj⟩ | ⟨hxy, hlink⟩)
    · exact hexempt j hex
    · exact hj
    · subst hlink
      exact absurd hxy (hm.ne he).symm
  have hnr : (m.grid.cut x p ⟨y, v, link⟩).nrActive = m.grid.nrActive := by
    cases link <;> rfl
  have hsize : ((m.grid.cut x p ⟨y, v, link⟩).cells x).size = (m.grid.cells x).size := by
    rw [Grid.cells_cut hm he, Array.size_modify]
  have hdone := Grid.parted_removed hf hcell hcutParted hfp hself (by rwa [hnr, hsize])
  intro z j e' he' hnot
  refine hdone z j e' he' ?_
  rintro ⟨hz, hex | ⟨hzx, -⟩ | hlink⟩
  · exact hnot ⟨hz, .inl hex⟩
  · exact hz hzx
  · exact hnot ⟨hz, .inr hlink⟩

/-- What is stored, but for the entry and its counterpart, is what was stored before. -/
theorem stored (a b : Line) : m'.grid.stored a b +
      (if a = x ∧ e.partner = b then {(e.value, e.link.isSome)} else 0) +
      (if a = e.partner ∧ x = b ∧ e.link.isSome = true then {(e.value, true)} else 0) =
    m.grid.stored a b +
      if a = e.partner ∧ x = b ∧ e.link.isSome = true then {(e.value, false)} else 0 := by
  obtain ⟨f, hf, -⟩ := h.rearranges
  have hremoved := Grid.stored_removed hf rfl a b
  obtain ⟨y, v, _ | k⟩ := e
  · change _ = m.grid.stored a b at hremoved
    simpa using hremoved
  · have hcut := Grid.stored_disconnect hm he a b
    change _ = (m.grid.disconnect x p y k).stored a b at hremoved
    simp only [Option.isSome_some, and_true] at hremoved ⊢
    rw [← hremoved, add_right_comm (m'.grid.stored a b), add_right_comm (m'.grid.stored a b + _),
      add_right_comm (m.grid.stored a b)] at hcut
    exact add_right_cancel hcut

end Removed

/-! ## Removing a coefficient -/

/-- An entry without a link is all that has to be removed. -/
theorem Sound.removed_unlinked (hm : m.Sound) (he : m.grid.cell x p = some ⟨y, v, none⟩)
    (hxy : x ≠ y) (h : Removed m m' x p ⟨y, v, none⟩) :
    ∃ forth, Updated m m' x y forth 0 ∧ forth + {(v, false)} = m.grid.stored x y := by
  have hmirrored := hm.wired.mirrored
  have hback : m.grid.stored y x = 0 :=
    hm.tidy.oneSided (Grid.mem_stored_iff.mpr ⟨p, _, he, rfl, rfl, rfl⟩)
  have hself : m'.grid.stored x y + {(v, false)} = m.grid.stored x y := by
    simpa using h.stored hmirrored he x y
  have hstored : m'.grid.stored = m.storedWith x y (m'.grid.stored x y) 0 := by
    funext a b
    have hsame := h.stored hmirrored he a b
    by_cases hab : a = x ∧ b = y
    · rw [hab.1, hab.2, storedWith_forth]
    · simp only [if_neg fun heq : a = x ∧ y = b => hab ⟨heq.1, heq.2.symm⟩, Option.isSome_none,
        Bool.false_eq_true, and_false, if_false, add_zero] at hsame
      by_cases hba : a = y ∧ b = x
      · rw [hsame, hba.1, hba.2, storedWith_back hxy, hback]
      · rw [hsame, storedWith_of_ne hab hba]
  refine ⟨_, ⟨⟨⟨h.mirrored hmirrored he, ?_, h.bounded he hm.wired.bounded⟩, h.counted hm.counted,
    hm.tidy.storedWith_of_le h.without hstored hxy ?_ (Multiset.zero_le _)⟩, h.without, hstored⟩,
    hself⟩
  · intro z j e' he' _
    refine h.parted hmirrored he hm.wired.parted (fun _ hno => hno.elim) z j e' he' ?_
    rintro ⟨-, hno | ⟨-, hno⟩⟩
    · exact hno
    · cases hno
  · rw [← hself]
    exact Multiset.le_add_right _ _

/-- A linked entry is removed, and then its counterpart. -/
theorem Sound.removed_linked (hm : m.Sound) (hl : m.grid.Linked x p y k v)
    (h : Removed m t x p ⟨y, v, some k⟩) (h' : Removed t m' y k ⟨x, v, none⟩) :
    ∃ forth back, Updated m m' x y forth back ∧ forth + {(v, true)} = m.grid.stored x y ∧
      back + {(v, true)} = m.grid.stored y x := by
  have hmirrored := hm.wired.mirrored
  have hyx : y ≠ x := hmirrored.ne hl
  have hmirrored' := h.mirrored hmirrored hl
  have hcell : t.grid.cell y k = some ⟨x, v, none⟩ := by
    obtain ⟨f, hf⟩ := h.cell_of_ne hmirrored hl
    rw [hf y k hyx, hmirrored.back hl, Option.map_some, if_pos ⟨rfl, rfl⟩]
    simp [Grid.retold]
  have hself : m'.grid.stored x y + {(v, true)} = m.grid.stored x y := by
    have h1 := h.stored hmirrored hl x y
    have h2 := h'.stored hmirrored' hcell x y
    simp only [hyx.symm, false_and, if_false, add_zero, Option.isSome_none, Bool.false_eq_true,
      and_false] at h1 h2
    rw [h2]
    simpa using h1
  have hcounter : m'.grid.stored y x + {(v, true)} = m.grid.stored y x := by
    have h1 := h.stored hmirrored hl y x
    have h2 := h'.stored hmirrored' hcell y x
    simp only [hyx, if_false, add_zero, and_true, Option.isSome_some, if_true, Option.isSome_none,
      Bool.false_eq_true, and_false] at h1 h2
    rw [← h2, add_right_comm] at h1
    exact add_right_cancel h1
  have hstored : m'.grid.stored =
      m.storedWith x y (m'.grid.stored x y) (m'.grid.stored y x) := by
    funext a b
    have h1 := h.stored hmirrored hl a b
    have h2 := h'.stored hmirrored' hcell a b
    by_cases hab : a = x ∧ b = y
    · rw [hab.1, hab.2, storedWith_forth]
    · by_cases hba : a = y ∧ b = x
      · rw [hba.1, hba.2, storedWith_back hyx.symm]
      · simp only [if_neg fun heq : a = x ∧ y = b => hab ⟨heq.1, heq.2.symm⟩,
          if_neg fun heq : a = y ∧ x = b => hba ⟨heq.1, heq.2.symm⟩,
          if_neg fun heq : a = y ∧ x = b ∧ (some k).isSome = true => hba ⟨heq.1, heq.2.1.symm⟩,
          Option.isSome_none, Bool.false_eq_true, and_false, if_false, add_zero] at h1 h2
        rw [storedWith_of_ne hab hba, h2, h1]
  have hparted := h.parted hmirrored hl hm.wired.parted fun _ hno => hno.elim
  have hexempt (j : Nat) (hj : y ≠ x ∧ (False ∨ (y = y ∧ some k = some j))) : j = k := by
    rcases hj.2 with hno | ⟨-, hlink⟩
    · exact hno.elim
    · exact (Option.some.inj hlink).symm
  refine ⟨_, _, ⟨⟨⟨h'.mirrored hmirrored' hcell, ?_,
    h'.bounded hcell (h.bounded hl hm.wired.bounded)⟩, h'.counted (h.counted hm.counted),
    hm.tidy.storedWith_of_le (h'.without.trans h.without) hstored hyx.symm ?_ ?_⟩,
    h'.without.trans h.without, hstored⟩, hself, hcounter⟩
  · intro z j e' he' _
    refine h'.parted hmirrored' hcell hparted hexempt z j e' he' ?_
    rintro ⟨hz, ⟨-, hno | ⟨hzy, -⟩⟩ | ⟨-, hno⟩⟩
    · exact hno
    · exact hz hzy
    · cases hno
  · rw [← hself]
    exact Multiset.le_add_right _ _
  · rw [← hcounter]
    exact Multiset.le_add_right _ _

/-- The coefficient of a column in a row was erased from both lists. A row that delays its order may
have more entries for the column. -/
structure Erased (m m' : ConstraintMatrix) (c : ColumnRef) (r : RowRef) : Prop where
  updated : ∃ back, Updated m m' (.column c) (.row r) 0 back ∧ (m.InOrder (.row r) → back = 0)

theorem eq_zero_of_add_singleton {α : Type} {s t : Multiset α} {a : α} (h : s + {a} = t)
    (ht : t.card ≤ 1) : s = 0 := by
  have hcard := congrArg Multiset.card h
  rw [Multiset.card_add, Multiset.card_singleton] at hcard
  exact Multiset.card_eq_zero.mp (by omega)

/-- Erasing a coefficient that is in the column. -/
theorem ends_removeBoth_of_column (hm : m.Sound) {link rowPosition : Option Nat}
    (he : (m.column c).entries.entries[p]? = some ⟨r, v, link⟩) :
    Ends (removeBoth c r (some p) rowPosition) m (fun _ m' => Erased m m' c r) E := by
  have hcell : m.grid.cell (.column c) p = some ⟨.row r, v, link⟩ := cell_of_column he
  have hlink : (m.column c).entries.link? p = link := by
    rw [Incidence.link?, Incidence.entry?, he, Option.bind_some]
  have hone : (m.grid.stored (.column c) (.row r)).card ≤ 1 := hm.tidy.single trivial
  simp only [removeBoth, removeFromColumn, Ends.bind_iff, ends_getColumn, hlink, Ends.pure_iff]
  refine Ends.mono_ok (ends_remove hm.wired.mirrored (hm.wired.bounded _) hcell) fun _ t ht => ?_
  cases link with
  | none =>
    obtain ⟨forth, hupdated, hforth⟩ := hm.removed_unlinked hcell (by simp) ht
    rw [eq_zero_of_add_singleton hforth hone] at hupdated
    exact ⟨0, hupdated, fun _ => rfl⟩
  | some k =>
    have hback := hm.wired.mirrored.back hcell
    obtain ⟨f, hf⟩ := ht.cell_of_ne hm.wired.mirrored hcell
    have hcell' : (t.dropCounterpart ⟨.row r, v, some k⟩).grid.cell (.row r) k =
        some ⟨.column c, v, none⟩ := by
      rw [hf _ _ (by simp), hback, Option.map_some, if_pos ⟨rfl, rfl⟩]
      simp [Grid.retold]
    have hhas : t.Has (.row r) := by
      rw [← has_congr (without_dropLink t (.row r) k)]
      exact has_of_cell hcell'
    obtain ⟨row, hrow⟩ := Option.isSome_iff_exists.mp hhas
    have hsecond := ends_remove (E := E) (ht.mirrored hm.wired.mirrored hcell)
      (ht.bounded hcell hm.wired.bounded _) hcell'
    have hsecond' := (ends_remove_dropLink hhas).mp hsecond
    simp only [removeFromRow, Ends.bind_iff, ends_getRow hrow, Ends.pure_iff]
    refine Ends.mono_ok hsecond' fun _ m' hm' => ?_
    obtain ⟨forth, back, hupdated, hforth, hback'⟩ := hm.removed_linked hcell ht hm'
    rw [eq_zero_of_add_singleton hforth hone] at hupdated
    exact ⟨back, hupdated, fun hr => eq_zero_of_add_singleton hback' (hm.tidy.single hr)⟩

/-- Erasing a coefficient that is in the row only. -/
theorem ends_removeBoth_of_row (hm : m.Sound) (hrow : m.row? r = some row)
    (he : row.entries.entries[p]? = some ⟨c, v, none⟩) :
    Ends (removeBoth c r none (some p)) m (fun _ m' => Erased m m' c r) E := by
  have hcell : m.grid.cell (.row r) p = some ⟨.column c, v, none⟩ := cell_of_row hrow he
  simp only [removeBoth, removeFromRow, Ends.bind_iff, ends_getRow hrow, Ends.pure_iff]
  refine Ends.mono_ok (ends_remove hm.wired.mirrored (hm.wired.bounded _) hcell) fun _ m' hm' => ?_
  obtain ⟨forth, hupdated, hforth⟩ := hm.removed_unlinked hcell (by simp) hm'
  exact ⟨forth, hupdated.symm (by simp),
    fun hr => eq_zero_of_add_singleton hforth (hm.tidy.single hr)⟩

end ConstraintMatrix

end CertifiedLp
