import Mathlib
import CertifiedLp.Proofs.Matrix.Ledger

/-!
# Replacing values

A coefficient gets another value in all lists that have it: in both, if its entries are linked.
-/

namespace CertifiedLp

namespace Grid

variable {g : Grid} {x y z : Line} {i j k : Nat} {v w : Extended} {link : Option Nat}
variable {e : Entry Line}

/-- Replace the value of an entry and that of its counterpart. -/
def revalue (g : Grid) (x : Line) (i : Nat) (y : Line) (link : Option Nat) (v : Extended) : Grid :=
  match link with
  | none => g.modify x i ({ · with value := v })
  | some k => (g.modify x i ({ · with value := v })).modify y k ({ · with value := v })

/-- Where the two entries of a coefficient are. -/
def OfPair (x : Line) (i : Nat) (y : Line) (link : Option Nat) (z : Line) (j : Nat) : Prop :=
  (z = x ∧ j = i) ∨ (z = y ∧ link = some j)

instance : Decidable (OfPair x i y link z j) := inferInstanceAs (Decidable (_ ∨ _))

section Revalue

variable (hg : g.Mirrored) (he : g.cell x i = some ⟨y, w, link⟩)

theorem size_revalue (z : Line) : ((g.revalue x i y link v).cells z).size = (g.cells z).size := by
  cases link with
  | none => exact size_modify z
  | some k => rw [revalue, size_modify, size_modify]

theorem nrActive_revalue : (g.revalue x i y link v).nrActive = g.nrActive := by
  cases link <;> rfl

theorem isActive_revalue : (g.revalue x i y link v).isActive = g.isActive := by
  cases link <;> rfl

theorem cell_revalue (z : Line) (j : Nat) : (g.revalue x i y link v).cell z j =
    (g.cell z j).map fun e => if OfPair x i y link z j then { e with value := v } else e := by
  cases link with
  | none =>
    rw [revalue, cell_modify]
    by_cases hx : z = x ∧ j = i
    · simp [OfPair, hx]
    · simp [OfPair, hx]
  | some k =>
    rw [revalue, cell_modify, cell_modify]
    by_cases hx : z = x ∧ j = i
    · by_cases hy : z = y ∧ j = k
      · rw [if_pos hy, if_pos hx, Option.map_map]
        exact congrArg (Option.map · _) (funext fun e => by simp [OfPair, hx])
      · rw [if_neg hy, if_pos hx]
        exact congrArg (Option.map · _) (funext fun e => by simp [OfPair, hx])
    · by_cases hy : z = y ∧ j = k
      · rw [if_pos hy, if_neg hx]
        exact congrArg (Option.map · _) (funext fun e => by simp [OfPair, hy.1, hy.2])
      · have hnot : ¬ OfPair x i y (some k) z j := by
          rintro (h | ⟨hz, hk⟩)
          · exact hx h
          · exact hy ⟨hz, (Option.some.inj hk).symm⟩
        simp [hy, hx, hnot]

include hg he

/-- The counterparts of the pair are the pair. -/
theorem ofPair_of_linked {p : Line} {q : Nat} {u : Extended} (hl : g.Linked z j p q u)
    (h : OfPair x i y link z j) : OfPair x i y link p q := by
  rcases h with ⟨rfl, rfl⟩ | ⟨rfl, rfl⟩
  · rw [Linked, he] at hl
    cases hl
    exact .inr ⟨rfl, rfl⟩
  · have hback := hg.back he
    rw [Linked, hl] at hback
    cases hback
    exact .inl ⟨rfl, rfl⟩

omit hg he in
theorem linked_revalue {p : Line} {q : Nat} {u : Extended} :
    (g.revalue x i y link v).Linked z j p q u ↔
      ∃ u', g.Linked z j p q u' ∧ u = if OfPair x i y link z j then v else u' := by
  rw [Linked, cell_revalue, Option.map_eq_some_iff]
  constructor
  · rintro ⟨⟨p', u', link'⟩, hcell, hsame⟩
    split at hsame
    · next hpair =>
      cases hsame
      exact ⟨u', hcell, (if_pos hpair).symm⟩
    · next hpair =>
      cases hsame
      exact ⟨u, hcell, (if_neg hpair).symm⟩
  · rintro ⟨u', hl, rfl⟩
    refine ⟨_, hl, ?_⟩
    split <;> rfl

theorem wired_revalue (hw : g.Wired) : (g.revalue x i y link v).Wired where
  mirrored := {
    back := fun {z j p q u} hl => by
      obtain ⟨u', hold, rfl⟩ := linked_revalue.mp hl
      have hback := hg.back hold
      exact linked_revalue.mpr ⟨u', hback, if_congr
        ⟨ofPair_of_linked hg he hold, ofPair_of_linked hg he hback⟩ rfl rfl⟩
    ne := fun hl => by
      obtain ⟨u', hold, -⟩ := linked_revalue.mp hl
      exact hg.ne hold }
  parted := by
    intro z j e' he' _
    rw [cell_revalue, Option.map_eq_some_iff] at he'
    obtain ⟨e, hold, rfl⟩ := he'
    have hpart := hw.parted z j e hold id
    rw [nrActive_revalue, hpart, InUse, InUse, isActive_revalue]
    split <;> exact Iff.rfl
  bounded z := by
    rw [nrActive_revalue, size_revalue]
    exact hw.bounded z

theorem stored_revalue (a b : Line) : (g.revalue x i y link v).stored a b +
      (if a = x ∧ y = b then {(w, link.isSome)} else 0) +
      (if a = y ∧ x = b ∧ link.isSome = true then {(w, true)} else 0) =
    g.stored a b + (if a = x ∧ y = b then {(v, link.isSome)} else 0) +
      if a = y ∧ x = b ∧ link.isSome = true then {(v, true)} else 0 := by
  have hfirst := stored_modify (f := ({ · with value := v })) he rfl a b
  cases link with
  | none => simpa [revalue] using hfirst
  | some k =>
    have hcell : (g.modify x i ({ · with value := v })).cell y k = some ⟨x, w, some i⟩ := by
      rw [cell_modify, if_neg fun h => hg.ne he h.1]
      exact hg.back he
    have hsecond := stored_modify (f := ({ · with value := v })) hcell rfl a b
    simp only [Option.isSome_some, and_true] at hfirst hsecond ⊢
    rw [revalue, add_right_comm, hsecond, add_right_comm, hfirst]

end Revalue

end Grid

namespace ConstraintMatrix

variable {m m' : ConstraintMatrix} {x y : Line} {i p : Nat} {v w : Extended} {link : Option Nat}

/-- An entry of a line in order, and its counterpart, are all that the two lines store. -/
theorem Sound.updated_revalue (hm : m.Sound) (hx : m.InOrder x) (hy : m.InOrder y)
    (he : m.grid.cell x i = some ⟨y, w, link⟩) (hxy : x ≠ y)
    (hgrid : m'.grid = m.grid.revalue x i y link v) (hcounted : ∀ z, m'.CountedAt z)
    (hwithout : m'.without .entries = m.without .entries) (hv : v.isFinite = true ∧ v ≠ 0) :
    Updated m m' x y {(v, link.isSome)} (if link.isSome then {(v, true)} else 0) := by
  have hmem : (w, link.isSome) ∈ m.grid.stored x y :=
    Grid.mem_stored_iff.mpr ⟨i, _, he, rfl, rfl, rfl⟩
  have hforth : m.grid.stored x y = {(w, link.isSome)} := hm.tidy.stored_eq_singleton hx hmem
  have hback : m.grid.stored y x = if link.isSome then {(w, true)} else 0 := by
    cases link with
    | none => exact hm.tidy.oneSided hmem
    | some k =>
      exact hm.tidy.stored_eq_singleton hy
        (Grid.mem_stored_iff.mpr ⟨k, _, hm.wired.mirrored.back he, rfl, rfl, rfl⟩)
  have hstored : m'.grid.stored =
      m.storedWith x y {(v, link.isSome)} (if link.isSome then {(v, true)} else 0) := by
    funext a b
    have hsum := Grid.stored_revalue (v := v) hm.wired.mirrored he a b
    rw [← hgrid] at hsum
    by_cases hab : a = x ∧ b = y
    · obtain ⟨rfl, rfl⟩ := hab
      rw [storedWith_forth]
      simp only [hxy, and_self, if_true, false_and, if_false, add_zero, hforth] at hsum
      rw [add_comm {(w, link.isSome)}] at hsum
      exact add_right_cancel hsum
    · by_cases hba : a = y ∧ b = x
      · obtain ⟨rfl, rfl⟩ := hba
        rw [storedWith_back hxy]
        simp only [hxy.symm, false_and, if_false, add_zero, true_and, hback] at hsum
        cases link with
        | none => simpa using hsum
        | some k =>
          simp only [Option.isSome_some, if_true] at hsum ⊢
          rw [add_comm {(w, true)}] at hsum
          exact add_right_cancel hsum
      · rw [storedWith_of_ne hab hba]
        simpa only [if_neg fun h : a = x ∧ y = b => hab ⟨h.1, h.2.symm⟩,
          if_neg fun h : a = y ∧ x = b ∧ link.isSome = true => hba ⟨h.1, h.2.1.symm⟩, add_zero]
          using hsum
  refine ⟨⟨?_, hcounted, ?_⟩, hwithout, hstored⟩
  · rw [hgrid]
    exact Grid.wired_revalue hm.wired.mirrored he hm.wired
  · have hstorable (b : Bool) (u : Extended) (b' : Bool)
        (hu : (u, b') ∈ ({(v, b)} : Multiset (Extended × Bool))) : u.isFinite = true ∧ u ≠ 0 := by
      obtain ⟨rfl, -⟩ := Prod.mk.inj (Multiset.mem_singleton.mp hu)
      exact hv
    refine hm.tidy.storedWith hwithout hstored hxy (fun hne => ?_)
      (fun _ => hm.tidy.has_partner he) (hstorable _) (fun u b hu => ?_) (fun _ => by simp)
      (fun _ => ?_) (fun u hu => ?_) fun u hu => ?_
    · exact has_of_cell he
    · split at hu
      · exact hstorable _ u b hu
      · exact absurd hu (Multiset.notMem_zero _)
    · split <;> simp
    · have hnone : false = link.isSome := (Prod.mk.inj (Multiset.mem_singleton.mp hu)).2
      rw [← hnone]
      rfl
    · split at hu
      · cases (Prod.mk.inj (Multiset.mem_singleton.mp hu)).2
      · exact absurd hu (Multiset.notMem_zero _)

/-! ## Replacing the value of a coefficient -/

/-- The matrix after the value of an entry was replaced. -/
def withValue (m : ConstraintMatrix) (x : Line) (position : Nat) (v : Extended) :
    ConstraintMatrix :=
  match x with
  | .column c => m.modifyColumn c fun column =>
      { column with entries := column.entries.setValue position v }
  | .row r => m.modifyRow r fun row => { row with entries := row.entries.setValue position v }

theorem grid_withValue (hx : m.Has x) :
    (m.withValue x p v).grid = m.grid.modify x p ({ · with value := v }) := by
  cases x with
  | column c =>
    rw [withValue, grid_modifyColumn_entries hx (F := (·.setValue p v)) fun _ => rfl,
      Incidence.setValue, map_modify (g := ({ · with value := v })) Line.row _ _ fun _ => rfl]
    rfl
  | row r =>
    obtain ⟨row, hrow⟩ := Option.isSome_iff_exists.mp hx
    rw [withValue, grid_modifyRow_entries hrow (F := (·.setValue p v)) fun _ => rfl,
      Incidence.setValue, map_modify (g := ({ · with value := v })) Line.column _ _ fun _ => rfl,
      Grid.modify, cells_row hrow]

theorem without_withValue (m : ConstraintMatrix) (x : Line) (p : Nat) (v : Extended) :
    (m.withValue x p v).without .entries = m.without .entries := by
  cases x with
  | column c => exact without_modifyColumn m c fun _ => rfl
  | row r => exact without_modifyRow m r fun _ => rfl

theorem countedAt_withValue (hx : m.Has x) (hm : ∀ z, m.CountedAt z) (z : Line) :
    (m.withValue x p v).CountedAt z := by
  cases x with
  | column c =>
    exact countedAt_modifyColumn_entries hx (F := (·.setValue p v)) hm
      (Incidence.counted_setValue (hm (.column c)) p v) z
  | row r =>
    obtain ⟨row, hrow⟩ := Option.isSome_iff_exists.mp hx
    exact countedAt_modifyRow_entries hrow (F := (·.setValue p v)) hm
      (Incidence.counted_setValue (hm (.row r) row hrow) p v) z

/-- The matrix after the value of an entry, and that of its counterpart, was replaced. -/
def withPairValue (m : ConstraintMatrix) (x : Line) (p : Nat) (y : Line) (v : Extended) :
    Option Nat → ConstraintMatrix
  | none => m.withValue x p v
  | some k => (m.withValue x p v).withValue y k v

/-- A coefficient gets another value in all lists that have it. -/
theorem Sound.updated_withPairValue (hm : m.Sound) (hx : m.InOrder x) (hy : m.InOrder y)
    (he : m.grid.cell x p = some ⟨y, w, link⟩) (hxy : x ≠ y) (hv : v.isFinite = true ∧ v ≠ 0) :
    Updated m (m.withPairValue x p y v link) x y
      {(v, link.isSome)} (if link.isSome then {(v, true)} else 0) := by
  have hhas : m.Has x := has_of_cell he
  have hhas' : (m.withValue x p v).Has y :=
    (has_congr (without_withValue m x p v) y).mpr (hm.tidy.has_partner he)
  refine hm.updated_revalue hx hy he hxy ?_ ?_ ?_ hv
  · cases link with
    | none => exact grid_withValue hhas
    | some k =>
      rw [withPairValue, grid_withValue hhas', grid_withValue hhas]
      rfl
  · cases link with
    | none => exact countedAt_withValue hhas hm.counted
    | some k => exact countedAt_withValue hhas' (countedAt_withValue hhas hm.counted)
  · cases link with
    | none => exact without_withValue m x p v
    | some k => exact (without_withValue ..).trans (without_withValue ..)

end ConstraintMatrix

end CertifiedLp
