import Mathlib
import CertifiedLp.Proofs.Matrix.Adding
import CertifiedLp.Proofs.Matrix.Freeing
import CertifiedLp.Proofs.Matrix.Ledger
import CertifiedLp.Proofs.Matrix.Searching
import CertifiedLp.Proofs.Matrix.StandIns

/-!
# Loops over lists that change

Linking a line walks over its list once, while entries move to the front of the list; freeing a row
walks over the lists of columns, while entries are taken out of them. In an orderly matrix every
entry gets its turn, unless an infinite coefficient is to be linked, which is refused.

The loops are followed in a sound matrix. An orderly one may have infinite coefficients, so the
loops are followed with rational numbers in their place: natural operations do the same there.
-/

namespace CertifiedLp

open Extended

/-! ## What entries say -/

section Summaries

variable {κ : Type} {g g' : Grid} {x z : Line}

/-- What an entry says, up to the position of its counterpart. -/
def Entry.summary (e : Entry κ) : κ × Extended × Bool := (e.partner, e.value, e.link.isSome)

theorem Grid.count_summary (g : Grid) (x y : Line) (v : Extended) (b : Bool) :
    (((g.cells x).toList : Multiset _).map Entry.summary).count (y, v, b) =
      (g.stored x y).count (v, b) := by
  rw [Grid.stored, ← Multiset.map_coe, ← Multiset.filter_coe, Multiset.count_map,
    Multiset.count_map, Multiset.filter_filter]
  congr 1
  apply Multiset.filter_congr
  intro e _
  simp only [Entry.summary, Prod.mk.injEq]
  tauto

/-- A line that lost what it had for another one, and nothing else. -/
theorem Grid.perm_summaries (h : ∀ y, g'.stored x y = if y = z then 0 else g.stored x y) :
    ((g'.cells x).toList.map Entry.summary).Perm
      (((g.cells x).toList.filter (·.partner ≠ z)).map Entry.summary) := by
  rw [← Multiset.coe_eq_coe, ← Multiset.map_coe, ← Multiset.map_coe, ← Multiset.filter_coe]
  apply Multiset.ext'
  rintro ⟨y, v, b⟩
  rw [count_summary, h]
  split
  · next hyz =>
    rw [Multiset.count_zero, eq_comm, Multiset.count_eq_zero, Multiset.mem_map]
    rintro ⟨e, he, heq⟩
    exact (Multiset.mem_filter.mp he).2 ((congrArg Prod.fst heq).trans hyz)
  · next hyz =>
    rw [← count_summary, Multiset.count_map, Multiset.count_map, Multiset.filter_filter]
    congr 1
    apply Multiset.filter_congr
    intro e _
    constructor
    · intro heq
      exact ⟨heq, fun hz => hyz ((congrArg Prod.fst heq).trans hz)⟩
    · intro heq
      exact heq.1

/-- Entries that say the same with names for lines say the same. -/
theorem Entry.perm_summaries {name : κ → Line} (hname : Function.Injective name)
    {es es' : Array (Entry κ)}
    (h : ((es'.map (Entry.map name)).toList.map Entry.summary).Perm
      (((es.map (Entry.map name)).toList.filter (·.partner ≠ z)).map Entry.summary)) :
    (es'.toList.map Entry.summary).Perm
      ((es.toList.filter (name ·.partner ≠ z)).map Entry.summary) := by
  have hsummary : Entry.summary ∘ Entry.map name = Prod.map name id ∘ Entry.summary := rfl
  rw [Array.toList_map, Array.toList_map, List.filter_map, List.map_map, List.map_map, hsummary,
    ← List.map_map, ← List.map_map] at h
  exact (List.map_perm_map_iff (hname.prodMap Function.injective_id)).mp h

end Summaries

namespace ConstraintMatrix

variable {m m' t : ConstraintMatrix} {c : ColumnRef} {r : RowRef} {row : Row} {x y : Line} {i : Nat}
variable {v : Extended} {α : Type}

/-- What a natural operation does to a matrix, from what it does with other values. -/
theorem Natural.ends {f : Extended → Extended} {op op' : MatrixM α} (h : Natural f op' op)
    {Q : α → ConstraintMatrix → Prop} {E : LpError → ConstraintMatrix → Prop}
    (hends : Ends op' (m.mapValues f) Q E) :
    Ends op m (fun a t => Q a (t.mapValues f)) fun e t => E e (t.mapValues f) := by
  unfold Ends at hends ⊢
  rw [h m] at hends
  generalize op.run.run m = outcome at hends ⊢
  obtain ⟨_ | a, t⟩ := outcome
  · exact hends
  · exact hends

/-! ## Reading coefficients -/

/-- A coefficient of an orderly matrix can be read. The value stands for what is stored. -/
theorem Orderly.exists_coefficient (h : m.Orderly) (hc : c ∈ m.columnRefs) (hr : r ∈ m.rowRefs) :
    ∃ v, ((coefficient c r).run.run m).1 = .ok v ∧
      v.standIn = .finite ((m.mapValues standIn).amount c r) := by
  obtain ⟨row, hrow⟩ := Option.isSome_iff_exists.mp (mem_rowRefs.mp hr)
  have hhas : (m.mapValues standIn).Has (.column c) := by
    rw [← mem_columnRefs, columnRefs_mapValues]
    exact hc
  have hrow' : (m.mapValues standIn).row? r = some (row.mapValues standIn) := by
    rw [row?_mapValues, hrow, Option.map_some]
  have hread := (ends_coefficient h.sound_standIn hhas hrow' (h.ordered r hr row hrow)).mono_ok
    (E := fun _ _ => False) fun _ _ hvalue => hvalue.2
  have hends := Ends.map_iff.mp ((natural_coefficient standIn_zero).ends hread)
  obtain ⟨v, t, hrun, hv⟩ := hends.exists_ok
  exact ⟨v, by rw [hrun], hv⟩

/-- Orderly matrices with the same amounts answer alike. -/
theorem Orderly.coefficient_eq (h : m.Orderly) (h' : m'.Orderly) (hc : c ∈ m.columnRefs)
    (hc' : c ∈ m'.columnRefs) (hr : r ∈ m.rowRefs) (hr' : r ∈ m'.rowRefs)
    (hamount : (m'.mapValues standIn).amount c r = (m.mapValues standIn).amount c r) :
    ((coefficient c r).run.run m').1 = ((coefficient c r).run.run m).1 := by
  obtain ⟨v, hread, hv⟩ := h.exists_coefficient hc hr
  obtain ⟨v', hread', hv'⟩ := h'.exists_coefficient hc' hr'
  rw [hamount, ← hv] at hv'
  rw [hread, hread', standIn_injective hv']

/-! ## Linking -/

/-- The matrix is still orderly and has the same coefficients, and nothing else changed but the
places of entries and which of them are linked. -/
structure SameCoefficients (m m' : ConstraintMatrix) : Prop where
  orderly : m'.Orderly
  without : m'.without .entries = m.without .entries
  content : ∀ c r, m'.content c r = m.content c r
  read : ∀ c ∈ m.columnRefs, ∀ r ∈ m.rowRefs,
    ((coefficient c r).run.run m').1 = ((coefficient c r).run.run m).1

theorem columnRefs_of_without (h : m'.without .entries = m.without .entries) :
    m'.columnRefs = m.columnRefs := by
  rw [columnRefs, columnRefs, size_columns_eq_of_without h]

/-- Links among values that stand for others are links among these. -/
theorem Orderly.sameCoefficients (h : m.Orderly)
    (hlinks : (m.mapValues standIn).Links x (m'.mapValues standIn)) : m.SameCoefficients m' := by
  have hwithout : m'.without .entries = m.without .entries := by
    rw [← without_mapValues standIn m', hlinks.without, without_mapValues]
  have horderly : m'.Orderly := by
    apply orderly_standIn.mp
    apply hlinks.sound.orderly
    intro y
    rw [inOrder_congr hlinks.without]
    exact (orderly_standIn.mpr h).inOrder y
  refine ⟨horderly, hwithout, ?_, ?_⟩
  · intro c r
    apply Multiset.map_injective standIn_injective
    rw [← content_mapValues, ← content_mapValues]
    exact hlinks.content c r
  · intro c hc r hr
    apply h.coefficient_eq horderly hc _ hr
    · rw [mem_rowRefs] at hr ⊢
      exact (has_congr hwithout (.row r)).mpr hr
    · exact congrFun (congrFun hlinks.amount c) r
    · rwa [columnRefs_of_without hwithout]

/-- Nothing has changed. -/
theorem Orderly.same (h : m.Orderly) : m.SameCoefficients m :=
  ⟨h, rfl, fun _ _ => rfl, fun _ _ _ _ => rfl⟩

theorem FullyLinked.of_mapValues {f : Extended → Extended} (h : (m.mapValues f).FullyLinked x) :
    m.FullyLinked x := by
  intro i e he
  apply h i (e.mapValue f)
  rw [cell_mapValues, he, Option.map_some]

/-- All entries of the line have counterparts now. -/
structure Visited (m : ConstraintMatrix) (x : Line) (m' : ConstraintMatrix) : Prop where
  same : m.SameCoefficients m'
  fullyLinked : m'.FullyLinked x

/-- All entries of the line that have no counterpart are finite. -/
def Linkable (m : ConstraintMatrix) (x : Line) : Prop :=
  ∀ i y v, m.grid.cell x i = some ⟨y, v, none⟩ → v.isFinite = true

/-- How far a loop has come, among values that stand for others. -/
def Coming (m : ConstraintMatrix) (x : Line) (i : Nat) (t : ConstraintMatrix) : Prop :=
  (m.mapValues standIn).LinkingUp x i (t.mapValues standIn)

theorem Orderly.coming (h : m.Orderly) (x : Line) : m.Coming x 0 m := h.sound_standIn.linkingUp x

theorem Orderly.visited (h : m.Orderly) (ht : m.Coming x (m.grid.cells x).size t) :
    m.Visited x t := by
  have hsize : ((m.mapValues standIn).grid.cells x).size = (m.grid.cells x).size := by
    rw [cells_mapValues, Array.size_map]
  rw [Coming, ← hsize] at ht
  exact ⟨h.sameCoefficients ht.links, ht.fullyLinked.of_mapValues⟩

/-- A position without an unlinked entry is passed over. -/
theorem Coming.pass (h : m.Coming x i t) (hi : ∀ y v, t.grid.cell x i ≠ some ⟨y, v, none⟩) :
    m.Coming x (i + 1) t := by
  apply LinkingUp.skip h
  intro y w he
  rw [cell_mapValues, Option.map_eq_some_iff] at he
  obtain ⟨⟨p, v, link⟩, he, heq⟩ := he
  cases heq
  exact hi p v he

/-- What a loop finds without a link had none before, so the value is one of the line. -/
theorem Coming.unlinked {j : Nat} (h : m.Coming x j t)
    (he : t.grid.cell x i = some ⟨y, v, none⟩) : ∃ k, m.grid.cell x k = some ⟨y, v, none⟩ := by
  have hstored : (v, false) ∈ t.grid.stored x y :=
    Grid.mem_stored_iff.mpr ⟨i, _, he, rfl, rfl, rfl⟩
  have hmapped : (v.standIn, false) ∈ (t.mapValues standIn).grid.stored x y := by
    rw [stored_mapValues]
    exact Multiset.mem_map_of_mem (Prod.map standIn id) hstored
  have hold := h.links.unlinked hmapped
  rw [stored_mapValues, Multiset.mem_map] at hold
  obtain ⟨⟨w, b⟩, hw, heq⟩ := hold
  obtain ⟨hvalue, rfl⟩ := Prod.mk.inj heq
  obtain rfl := standIn_injective hvalue
  obtain ⟨k, ⟨p, w, link⟩, hk, rfl, rfl, hnone⟩ := Grid.mem_stored_iff.mp hw
  obtain rfl : link = none := by simpa using hnone
  exact ⟨k, hk⟩

theorem Orderly.storable (h : m.Orderly) (hlinkable : m.Linkable x) {j : Nat}
    (hup : m.Coming x j t) (he : t.grid.cell x i = some ⟨y, v, none⟩) : Storable standIn v := by
  obtain ⟨k, hk⟩ := hup.unlinked he
  have hzero : v ≠ 0 := h.value_ne_zero hk
  refine ⟨⟨hlinkable k y v hk, hzero⟩, v.isFinite_standIn, fun hv => hzero ?_⟩
  exact standIn_injective (hv.trans standIn_zero.symm)

/-- One step of a loop over a line: what the position holds without a link gets a counterpart. -/
theorem Orderly.ends_mirror (h : m.Orderly) (hlinkable : m.Linkable x) (hxy : x ≠ y)
    (hup : m.Coming x i t) (he : t.grid.cell x i = some ⟨y, v, none⟩)
    (mirror : Extended → MatrixM Nat)
    (hnatural : Storable standIn v → Natural standIn (mirror v.standIn) (mirror v))
    {E : LpError → ConstraintMatrix → Prop}
    (hmirror : Ends (mirror v.standIn) (t.mapValues standIn)
      (fun _ t' => (t.mapValues standIn).Linking t' x i y v.standIn) fun _ _ => False) :
    Ends (mirror v) t (fun _ t' => m.Coming x (i + 1) t') E := by
  have hcell : (t.mapValues standIn).grid.cell x i = some ⟨y, v.standIn, none⟩ := by
    rw [cell_mapValues, he, Option.map_some]
    rfl
  have horder : (m.mapValues standIn).InOrder x :=
    (inOrder_congr (without_mapValues standIn m) x).mpr (h.inOrder x)
  have hends := (hnatural (h.storable hlinkable hup he)).ends hmirror
  refine hends.mono (fun _ t' hlinking => ?_) fun _ _ herror => herror.elim
  exact LinkingUp.next hup horder hxy hcell hlinking

/-- Linking a column of an orderly matrix visits all of its entries. -/
theorem Orderly.ends_linkColumn (h : m.Orderly) (hlinkable : m.Linkable (.column c))
    {E : LpError → ConstraintMatrix → Prop} :
    Ends (linkColumn c) m (fun _ m' => m.Visited (.column c) m') E := by
  refine (ends_linkColumn_loop (I := m.Coming (.column c)) (h.counted (.column c)) (h.coming (.column c))
    (fun i t ht hi => ht.pass hi) fun i t r v ht he => ?_).mono_ok fun _ t ht => h.visited ht
  have hentry : ((t.mapValues standIn).column c).entries.entries[i]? =
      some ⟨r, v.standIn, none⟩ := by
    rw [column_mapValues]
    exact (Incidence.entry?_mapValues standIn (t.column c).entries i).trans (congrArg _ he)
  apply h.ends_mirror hlinkable (by simp) ht (cell_of_column he) (fun v => mirrorInRow r c v i)
  · intro hv
    exact natural_mirrorInRow hv i
  · exact (ends_mirrorInRow ht.links.sound hentry).mono_ok fun _ _ h' => h'.1

/-- Linking a row of an orderly matrix visits all of its entries. -/
theorem Orderly.ends_linkRow (h : m.Orderly) (hrow : m.row? r = some row)
    (hlinkable : m.Linkable (.row r)) {E : LpError → ConstraintMatrix → Prop} :
    Ends (linkRow r) m (fun _ m' => m.Visited (.row r) m') E := by
  have hwithout {i : Nat} {t : ConstraintMatrix} (ht : m.Coming (.row r) i t) :
      t.without .entries = m.without .entries := by
    rw [← without_mapValues standIn t, ht.links.without, without_mapValues]
  have hhas : m.Has (.row r) := Option.isSome_iff_exists.mpr ⟨row, hrow⟩
  refine (ends_linkRow_loop (I := m.Coming (.row r)) hrow (h.counted (.row r))
    (fun i t ht => (has_congr (hwithout ht) (.row r)).mpr hhas) (h.coming (.row r))
    (fun i t ht hi => ht.pass hi) fun i t row' c v ht hrow' he => ?_).mono_ok
    fun _ t ht => h.visited ht
  have horder : (t.mapValues standIn).InOrder (.row r) :=
    (inOrder_congr ((without_mapValues standIn t).trans (hwithout ht)) _).mpr (h.inOrder _)
  have hmapped : (t.mapValues standIn).row? r = some (row'.mapValues standIn) := by
    rw [row?_mapValues, hrow', Option.map_some]
  have hentry : (row'.mapValues standIn).entries.entries[i]? = some ⟨c, v.standIn, none⟩ :=
    (Incidence.entry?_mapValues standIn row'.entries i).trans (congrArg _ he)
  apply h.ends_mirror hlinkable (by simp) ht (cell_of_row hrow' he)
    (fun v => mirrorInColumn c r v i)
  · intro hv
    exact natural_mirrorInColumn hv i
  · exact (ends_mirrorInColumn ht.links.sound horder hmapped hentry).mono_ok fun _ _ h' => h'.1

/-! ## Freeing -/

/-- A row was freed, with the entries that refer to it, and nothing else changed but the places of
entries. -/
structure OnlyFreed (m : ConstraintMatrix) (r : RowRef) (m' : ConstraintMatrix) : Prop where
  orderly : m'.Orderly
  without : m'.without .entries = (m.withoutRow r).without .entries
  column : ∀ c, ((m'.column c).entries.entries.toList.map Entry.summary).Perm
    (((m.column c).entries.entries.toList.filter (·.partner ≠ r)).map Entry.summary)
  row : ∀ s row, s ≠ r → m.row? s = some row → ∃ row', m'.row? s = some row' ∧
    (row'.entries.entries.toList.map Entry.summary).Perm
      (row.entries.entries.toList.map Entry.summary)
  read : ∀ c ∈ m.columnRefs, ∀ s ∈ m.rowRefs, s ≠ r →
    ((coefficient c s).run.run m').1 = ((coefficient c s).run.run m).1

namespace Freed

variable (hfreed : Freed (m.mapValues standIn) (m'.mapValues standIn) r)

include hfreed

/-! What is freed among values that stand for others is freed among these. -/

theorem without_of_standIn : m'.without .entries = (m.withoutRow r).without .entries := by
  rw [← without_mapValues standIn m', hfreed.without,
    without_withoutRow (without_mapValues standIn m)]

theorem orderly_of_standIn (h : m.Orderly) : m'.Orderly := by
  apply orderly_standIn.mp
  apply hfreed.sound.orderly
  intro x
  rw [inOrder_congr hfreed.without]
  by_cases hx : x = .row r
  · subst hx
    intro row hrow
    rw [row?_withoutRow, if_pos rfl] at hrow
    cases hrow
  · exact (inOrder_withoutRow hx).mpr ((orderly_standIn.mpr h).inOrder x)

theorem stored_of_standIn (x y : Line) : m'.grid.stored x y =
    if x = .row r ∨ y = .row r then 0 else m.grid.stored x y := by
  apply Multiset.map_injective (standIn_injective.prodMap Function.injective_id)
  rw [← stored_mapValues, hfreed.stored, stored_mapValues]
  split
  · rfl
  · rfl

theorem perm_of_standIn (hx : x ≠ .row r) : ((m'.grid.cells x).toList.map Entry.summary).Perm
    (((m.grid.cells x).toList.filter (·.partner ≠ .row r)).map Entry.summary) := by
  apply Grid.perm_summaries
  intro y
  rw [hfreed.stored_of_standIn]
  simp only [hx, false_or]

theorem has_of_standIn (hx : x ≠ .row r) : m'.Has x ↔ m.Has x := by
  rw [has_congr hfreed.without_of_standIn, has_withoutRow hx]

theorem coefficient_of_standIn (h : m.Orderly) {s : RowRef} (hc : c ∈ m.columnRefs)
    (hs : s ∈ m.rowRefs) (hne : Line.row s ≠ .row r) :
    ((coefficient c s).run.run m').1 = ((coefficient c s).run.run m).1 := by
  have hc' : c ∈ m'.columnRefs :=
    mem_columnRefs.mpr ((hfreed.has_of_standIn (by simp)).mpr (mem_columnRefs.mp hc))
  have hs' : s ∈ m'.rowRefs :=
    mem_rowRefs.mpr ((hfreed.has_of_standIn hne).mpr (mem_rowRefs.mp hs))
  apply h.coefficient_eq (hfreed.orderly_of_standIn h) hc hc' hs hs'
  have hpair : ¬ (Line.column c = .row r ∨ Line.row s = .row r) := by
    rintro (heq | heq)
    · cases heq
    · exact hne heq
  rw [amount_eq_total, amount_eq_total, hfreed.stored, if_neg hpair, hfreed.stored,
    if_neg (mt Or.symm hpair)]

theorem onlyFreed (h : m.Orderly) : m.OnlyFreed r m' where
  orderly := hfreed.orderly_of_standIn h
  without := hfreed.without_of_standIn
  column c := by
    have hc : Line.column c ≠ .row r := by simp
    have hperm := hfreed.perm_of_standIn hc
    rw [cells_column, cells_column] at hperm
    refine (Entry.perm_summaries Line.row_injective hperm).trans (List.Perm.of_eq ?_)
    simp
  row s row hs hrow := by
    have hne : Line.row s ≠ .row r := fun heq => hs (Line.row_injective heq)
    obtain ⟨row', hrow'⟩ := Option.isSome_iff_exists.mp
      ((hfreed.has_of_standIn hne).mpr (Option.isSome_iff_exists.mpr ⟨row, hrow⟩))
    have hperm := hfreed.perm_of_standIn hne
    rw [cells_row hrow, cells_row hrow'] at hperm
    refine ⟨row', hrow', (Entry.perm_summaries Line.column_injective hperm).trans ?_⟩
    exact List.Perm.of_eq (by simp)
  read c hc s hs hne :=
    hfreed.coefficient_of_standIn h hc hs fun heq => hne (Line.row_injective heq)

end Freed

/-- Freeing a row of an orderly matrix visits all entries that refer to it. -/
theorem Orderly.ends_freeRow (h : m.Orderly) (hrow : m.row? r = some row)
    {E : LpError → ConstraintMatrix → Prop} :
    Ends (freeRow r) m (fun _ m' => m.OnlyFreed r m') E := by
  have hrow' : (m.mapValues standIn).row? r = some (row.mapValues standIn) := by
    rw [row?_mapValues, hrow, Option.map_some]
  have hends := (natural_freeRow r).ends
    (ConstraintMatrix.ends_freeRow (E := fun _ _ => False) h.sound_standIn hrow')
  exact hends.mono (fun _ m' hfreed => hfreed.onlyFreed h) fun _ _ herror => herror.elim

/-! ## All loops -/

theorem Visited.linkedColumn (h : m.Visited (.column c) m') :
    (m'.column c).entries.nrUnlinked = 0 ∧
      ∀ e ∈ (m'.column c).entries.entries, e.link.isSome = true := by
  have hlinked : ∀ e ∈ (m'.column c).entries.entries, e.link.isSome = true := by
    intro e he
    obtain ⟨i, hi⟩ := Array.mem_iff_getElem?.mp he
    exact h.fullyLinked i _ (cell_of_column hi)
  exact ⟨(h.same.orderly.counted (.column c)).nrUnlinked_eq_zero hlinked, hlinked⟩

theorem Visited.linkedRow (h : m.Visited (.row r) m') (hrow : m'.row? r = some row) :
    row.entries.nrUnlinked = 0 ∧ ∀ e ∈ row.entries.entries, e.link.isSome = true := by
  have hlinked : ∀ e ∈ row.entries.entries, e.link.isSome = true := by
    intro e he
    obtain ⟨i, hi⟩ := Array.mem_iff_getElem?.mp he
    exact h.fullyLinked i _ (cell_of_row hrow hi)
  exact ⟨(h.same.orderly.counted (.row r) row hrow).nrUnlinked_eq_zero hlinked, hlinked⟩

theorem OnlyFreed.gone (h : m.OnlyFreed r m') : m'.row? r = none := by
  have hmap := row?_eq_of_without h.without r
  rw [row?_withoutRow, if_pos rfl, Option.map_none, Option.map_eq_none_iff] at hmap
  exact hmap

theorem OnlyFreed.unreferenced (h : m.OnlyFreed r m') {e : Entry RowRef}
    (he : e ∈ (m'.column c).entries.entries) : e.partner ≠ r := by
  have hmem := (h.column c).mem_iff.mp (List.mem_map_of_mem (Array.mem_toList_iff.mpr he))
  obtain ⟨e', he', heq⟩ := List.mem_map.mp hmem
  have hpartner : e'.partner = e.partner := congrArg Prod.fst heq
  rw [← hpartner]
  simpa using (List.mem_filter.mp he').2

theorem linkable_column (h : ∀ e ∈ (m.column c).entries.entries, e.link = none →
    e.value.isFinite = true) : m.Linkable (.column c) := by
  intro i y v hcell
  obtain ⟨⟨p, w, link⟩, he, heq⟩ := partner_of_cell_column hcell
  cases heq
  exact h _ (Array.mem_of_getElem? he) rfl

theorem linkable_row (hrow : m.row? r = some row) (h : ∀ e ∈ row.entries.entries, e.link = none →
    e.value.isFinite = true) : m.Linkable (.row r) := by
  intro i y v hcell
  obtain ⟨row', ⟨p, w, link⟩, hrow', he, heq⟩ := partner_of_cell_row hcell
  obtain rfl : row = row' := Option.some.inj (hrow.symm.trans hrow')
  cases heq
  exact h _ (Array.mem_of_getElem? he) rfl

/-- Although the lists change under them, the loops visit every entry of an orderly matrix. Linking
a column or a row whose entries without a link are finite leaves no entry of it without a link and
changes no coefficient. Freeing a row leaves no entry that refers to it, and removes nothing
else. -/
theorem Orderly.loops_visit_all (h : m.Orderly) :
    (∀ c, (∀ e ∈ (m.column c).entries.entries, e.link = none → e.value.isFinite = true) →
      ∃ m', (linkColumn c).run.run m = (.ok (), m') ∧ m.SameCoefficients m' ∧
        (m'.column c).entries.nrUnlinked = 0 ∧
        ∀ e ∈ (m'.column c).entries.entries, e.link.isSome = true) ∧
    (∀ r row, m.row? r = some row →
      (∀ e ∈ row.entries.entries, e.link = none → e.value.isFinite = true) →
      ∃ m' row', (linkRow r).run.run m = (.ok (), m') ∧ m.SameCoefficients m' ∧
        m'.row? r = some row' ∧ row'.entries.nrUnlinked = 0 ∧
        ∀ e ∈ row'.entries.entries, e.link.isSome = true) ∧
    ∀ r row, m.row? r = some row → ∃ m', (freeRow r).run.run m = (.ok (), m') ∧
      m'.row? r = none ∧ (∀ c, ∀ e ∈ (m'.column c).entries.entries, e.partner ≠ r) ∧
      m.OnlyFreed r m' := by
  refine ⟨fun c hfinite => ?_, fun r row hrow hfinite => ?_, fun r row hrow => ?_⟩
  · obtain ⟨_, m', hrun, hvisited⟩ :=
      (h.ends_linkColumn (E := fun _ _ => False) (linkable_column hfinite)).exists_ok
    exact ⟨m', hrun, hvisited.same, hvisited.linkedColumn⟩
  · obtain ⟨_, m', hrun, hvisited⟩ :=
      (h.ends_linkRow (E := fun _ _ => False) hrow (linkable_row hrow hfinite)).exists_ok
    obtain ⟨row', hrow', -⟩ := row_eq_of_without hvisited.same.without hrow
    exact ⟨m', row', hrun, hvisited.same, hrow', hvisited.linkedRow hrow'⟩
  · obtain ⟨_, m', hrun, hfreed⟩ := (h.ends_freeRow (E := fun _ _ => False) hrow).exists_ok
    exact ⟨m', hrun, hfreed.gone, fun c e he => hfreed.unreferenced he, hfreed⟩

/-- A column that is not active, with a linked entry and one without a link for each of a row that
is active and one that is not, next to an active column that two of the rows have. -/
def mixed : ConstraintMatrix where
  columns := #[
    { Column.create default false default with
      entries := ⟨#[⟨⟨2⟩, 4, some 0⟩, ⟨⟨1⟩, 5, none⟩, ⟨⟨0⟩, 2, none⟩], 0, 2, 0, 2⟩ },
    { Column.create default false default with
      entries := ⟨#[⟨⟨0⟩, 7, some 0⟩], 1, 0, 0, 0⟩
      activePosition := some 0 }]
  rows := #[
    some { Row.create "" default with
      entries := ⟨#[⟨⟨1⟩, 7, some 0⟩], 1, 0, 0, 0⟩
      activePosition := some 0 },
    some { Row.create "" default with entries := ⟨#[⟨⟨1⟩, 3, none⟩], 0, 1, 0, 0⟩ },
    some { Row.create "" default with entries := ⟨#[⟨⟨0⟩, 4, some 0⟩], 0, 0, 0, 0⟩ }]
  solverColumns := #[]
  solverRows := #[]
  firstChangedColumn := 0
  firstChangedRow := 0
  synced := false

theorem loops_visit_mixed : mixed.Orderly ∧
    (∃ m', (linkColumn ⟨0⟩).run.run mixed = (.ok (), m') ∧ mixed.SameCoefficients m' ∧
      (m'.column ⟨0⟩).entries.nrUnlinked = 0) ∧
    (∃ m' row', (linkRow ⟨1⟩).run.run mixed = (.ok (), m') ∧ mixed.SameCoefficients m' ∧
      m'.row? ⟨1⟩ = some row' ∧ row'.entries.nrUnlinked = 0) ∧
    ∃ m', (freeRow ⟨2⟩).run.run mixed = (.ok (), m') ∧ mixed.OnlyFreed ⟨2⟩ m' := by
  have horderly : mixed.Orderly := by decide +kernel
  obtain ⟨hcolumns, hrows, hfree⟩ := horderly.loops_visit_all
  obtain ⟨row, hrow⟩ := Option.isSome_iff_exists.mp (show (mixed.row? ⟨1⟩).isSome = true by decide)
  obtain ⟨freed, hfreed⟩ :=
    Option.isSome_iff_exists.mp (show (mixed.row? ⟨2⟩).isSome = true by decide)
  have hcolumn : ∀ e ∈ (mixed.column ⟨0⟩).entries.entries, e.link = none →
      e.value.isFinite = true := by decide
  have hvalues : ∀ row ∈ mixed.row? ⟨1⟩, ∀ e ∈ row.entries.entries, e.link = none →
      e.value.isFinite = true := by decide
  refine ⟨horderly, ?_, ?_, ?_⟩
  · obtain ⟨m', hrun, hsame, hnone, -⟩ := hcolumns ⟨0⟩ hcolumn
    exact ⟨m', hrun, hsame, hnone⟩
  · obtain ⟨m', row', hrun, hsame, hrow', hnone, -⟩ := hrows ⟨1⟩ row hrow (hvalues row hrow)
    exact ⟨m', row', hrun, hsame, hrow', hnone⟩
  · obtain ⟨m', hrun, -, -, honly⟩ := hfree ⟨2⟩ freed hfreed
    exact ⟨m', hrun, honly⟩

/-- A column and a row, each with an infinite entry for the other kind that has no link. -/
def boundless : ConstraintMatrix where
  columns := #[{ Column.create default false default with
    entries := ⟨#[⟨⟨0⟩, .posInf, none⟩], 0, 1, 0, 0⟩ }]
  rows := #[
    some (Row.create "" default),
    some { Row.create "" default with entries := ⟨#[⟨⟨0⟩, .negInf, none⟩], 0, 1, 0, 0⟩ }]
  solverColumns := #[]
  solverRows := #[]
  firstChangedColumn := 0
  firstChangedRow := 0
  synced := false

/-- The check of a matrix lets infinite coefficients pass, and linking refuses them: the entries
stay without a link. -/
theorem loops_visit_boundless : boundless.Orderly ∧
    (linkColumn ⟨0⟩).run.run boundless = (.error (.misuse (.notStorable .posInf)), boundless) ∧
    (boundless.column ⟨0⟩).entries.nrUnlinked = 1 ∧
    (linkRow ⟨1⟩).run.run boundless = (.error (.misuse (.notStorable .negInf)), boundless) ∧
    ∃ row, boundless.row? ⟨1⟩ = some row ∧ row.entries.nrUnlinked = 1 := by
  refine ⟨by decide +kernel, rfl, rfl, rfl, _, rfl, rfl⟩

end ConstraintMatrix

end CertifiedLp
