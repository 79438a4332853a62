import Mathlib
import CertifiedLp.Proofs.Matrix.Grid

/-!
# Pairs of entries

A coefficient that is stored in one line gets a counterpart in the other one, or loses it. In
between, the two entries of the coefficient may be in the wrong parts of their lines; they are
*exempt* until they are moved or removed.
-/

namespace CertifiedLp

namespace Grid

variable {g g' h : Grid} {x y z : Line} {i j k : Nat} {v : Extended} {e : Entry Line}
variable {f : Nat → Nat}

/-! ## Connecting -/

/-- Give an entry of a line a counterpart at the end of another line. -/
def connect (g : Grid) (x : Line) (i : Nat) (y : Line) (v : Extended) : Grid :=
  (g.push y ⟨x, v, some i⟩).modify x i ({ · with link := some (g.cells y).size })

section Connect

variable (hxy : x ≠ y) (he : g.cell x i = some ⟨y, v, none⟩)

include hxy he

theorem cell_connect (z : Line) (j : Nat) : (g.connect x i y v).cell z j =
    if z = x ∧ j = i then some ⟨y, v, some (g.cells y).size⟩
    else if z = y ∧ j = (g.cells y).size then some ⟨x, v, some i⟩
    else g.cell z j := by
  rw [connect, cell_modify, cell_push]
  by_cases hx : z = x ∧ j = i
  · obtain ⟨rfl, rfl⟩ := hx
    rw [if_pos ⟨rfl, rfl⟩, if_neg fun h => hxy h.1, if_pos ⟨rfl, rfl⟩, he, Option.map_some]
  · rw [if_neg hx, if_neg hx]

theorem linked_connect {z : Line} {j : Nat} {p : Line} {q : Nat} {w : Extended} :
    (g.connect x i y v).Linked z j p q w ↔ g.Linked z j p q w ∨
      (z = x ∧ j = i ∧ p = y ∧ q = (g.cells y).size ∧ w = v) ∨
        (z = y ∧ j = (g.cells y).size ∧ p = x ∧ q = i ∧ w = v) := by
  rw [Linked, cell_connect hxy he]
  split
  · next hx =>
    obtain ⟨rfl, rfl⟩ := hx
    have hold : ¬ g.Linked z j p q w := fun hl => by
      rw [Linked, he] at hl
      cases hl
    simp only [Option.some.injEq, Entry.mk.injEq, hold, false_or, true_and, hxy, false_and,
      or_false]
    constructor
    · rintro ⟨rfl, rfl, rfl⟩
      exact ⟨rfl, rfl, rfl⟩
    · rintro ⟨rfl, rfl, rfl⟩
      exact ⟨rfl, rfl, rfl⟩
  · next hx =>
    split
    · next hy =>
      obtain ⟨rfl, rfl⟩ := hy
      have hold : ¬ g.Linked z (g.cells z).size p q w := fun hl => by
        have hlt := lt_size_of_cell hl
        omega
      simp only [Option.some.injEq, Entry.mk.injEq, hold, false_or, true_and, hxy.symm, false_and]
      constructor
      · rintro ⟨rfl, rfl, rfl⟩
        exact ⟨rfl, rfl, rfl⟩
      · rintro ⟨rfl, rfl, rfl⟩
        exact ⟨rfl, rfl, rfl⟩
    · next hy =>
      constructor
      · exact fun hl => .inl hl
      · rintro (hl | ⟨h1, h2, -⟩ | ⟨h1, h2, -⟩)
        · exact hl
        · exact absurd ⟨h1, h2⟩ hx
        · exact absurd ⟨h1, h2⟩ hy

theorem mirrored_connect (hg : g.Mirrored) : (g.connect x i y v).Mirrored where
  back hl := by
    rw [linked_connect hxy he] at hl ⊢
    rcases hl with hl | ⟨rfl, rfl, rfl, rfl, rfl⟩ | ⟨rfl, rfl, rfl, rfl, rfl⟩
    · exact .inl (hg.back hl)
    · exact .inr (.inr ⟨rfl, rfl, rfl, rfl, rfl⟩)
    · exact .inr (.inl ⟨rfl, rfl, rfl, rfl, rfl⟩)
  ne hl := by
    rw [linked_connect hxy he] at hl
    rcases hl with hl | ⟨rfl, rfl, rfl, rfl, rfl⟩ | ⟨rfl, rfl, rfl, rfl, rfl⟩
    · exact hg.ne hl
    · exact hxy.symm
    · exact hxy

/-- Only the two entries may be in the wrong part now. -/
theorem parted_connect (hg : g.Wired) : (g.connect x i y v).Parted
    (fun z j => (z = x ∧ j = i) ∨ (z = y ∧ j = (g.cells y).size)) g.InUse := by
  intro z j e hcell hnot
  rw [not_or] at hnot
  rw [cell_connect hxy he, if_neg hnot.1, if_neg hnot.2] at hcell
  exact hg.parted z j e hcell id

theorem size_connect (z : Line) : ((g.connect x i y v).cells z).size =
    (g.cells z).size + if z = y then 1 else 0 := by
  rw [connect, size_modify]
  by_cases hz : z = y
  · subst hz
    simp [push]
  · rw [push, cells_update_of_ne hz, if_neg hz, add_zero]

theorem stored_connect (a b : Line) : (g.connect x i y v).stored a b +
      (if a = x ∧ y = b then {(v, false)} else 0) =
    g.stored a b + (if a = y ∧ x = b then {(v, true)} else 0) +
      if a = x ∧ y = b then {(v, true)} else 0 := by
  have hpushed : (g.push y ⟨x, v, some i⟩).cell x i = some ⟨y, v, none⟩ := by
    rw [cell_push, if_neg fun h => hxy h.1, he]
  have hmodified := stored_modify (f := ({ · with link := some (g.cells y).size })) hpushed rfl a b
  rw [stored_push] at hmodified
  simpa [connect] using hmodified

end Connect

/-! ## Disconnecting -/

/-- Take the links of the two entries of a coefficient. -/
def disconnect (g : Grid) (x : Line) (i : Nat) (y : Line) (k : Nat) : Grid :=
  (g.modify x i ({ · with link := none })).modify y k ({ · with link := none })

section Disconnect

variable (hg : g.Mirrored) (hl : g.Linked x i y k v)

theorem cell_disconnect (hxy : y ≠ x) (z : Line) (j : Nat) : (g.disconnect x i y k).cell z j =
    if (z = x ∧ j = i) ∨ (z = y ∧ j = k) then (g.cell z j).map ({ · with link := none })
    else g.cell z j := by
  rw [disconnect, cell_modify, cell_modify]
  by_cases hy : z = y ∧ j = k
  · obtain ⟨rfl, rfl⟩ := hy
    rw [if_pos ⟨rfl, rfl⟩, if_neg fun h => hxy h.1, if_pos (.inr ⟨rfl, rfl⟩)]
  · rw [if_neg hy]
    by_cases hx : z = x ∧ j = i
    · rw [if_pos hx, if_pos (.inl hx)]
    · rw [if_neg hx, if_neg (not_or.mpr ⟨hx, hy⟩)]

include hg hl

theorem linked_disconnect {z : Line} {j : Nat} {p : Line} {q : Nat} {w : Extended} :
    (g.disconnect x i y k).Linked z j p q w ↔
      g.Linked z j p q w ∧ ¬ (z = x ∧ j = i) ∧ ¬ (z = y ∧ j = k) := by
  rw [Linked, cell_disconnect (hg.ne hl)]
  split
  · next hpos =>
    constructor
    · intro heq
      obtain ⟨e, -, he⟩ := Option.map_eq_some_iff.mp heq
      cases he
    · rintro ⟨-, h1, h2⟩
      exact absurd hpos (not_or.mpr ⟨h1, h2⟩)
  · next hpos =>
    exact ⟨fun hold => ⟨hold, not_or.mp hpos⟩, fun hold => hold.1⟩

theorem mirrored_disconnect : (g.disconnect x i y k).Mirrored where
  back {z j p q w} hnew := by
    rw [linked_disconnect hg hl] at hnew ⊢
    obtain ⟨hold, hx, hy⟩ := hnew
    have hback := hg.back hold
    refine ⟨hback, ?_, ?_⟩
    · rintro ⟨rfl, rfl⟩
      rw [Linked, hl] at hback
      cases hback
      exact hy ⟨rfl, rfl⟩
    · rintro ⟨rfl, rfl⟩
      rw [Linked, hg.back hl] at hback
      cases hback
      exact hx ⟨rfl, rfl⟩
  ne hnew := hg.ne ((linked_disconnect hg hl).mp hnew).1

theorem parted_disconnect {exempt : Line → Nat → Prop} (hparted : g.Parted exempt g.InUse) :
    (g.disconnect x i y k).Parted
      (fun z j => exempt z j ∨ (z = x ∧ j = i) ∨ (z = y ∧ j = k)) g.InUse := by
  intro z j e hcell hnot
  rw [not_or] at hnot
  rw [cell_disconnect (hg.ne hl), if_neg hnot.2] at hcell
  exact hparted z j e hcell hnot.1

theorem stored_disconnect (a b : Line) : (g.disconnect x i y k).stored a b +
      (if a = x ∧ y = b then {(v, true)} else 0) + (if a = y ∧ x = b then {(v, true)} else 0) =
    g.stored a b + (if a = x ∧ y = b then {(v, false)} else 0) +
      if a = y ∧ x = b then {(v, false)} else 0 := by
  have hfirst := stored_modify (f := ({ · with link := none })) hl rfl a b
  have hcell : (g.modify x i ({ · with link := none })).cell y k = some ⟨x, v, some i⟩ := by
    rw [cell_modify, if_neg fun h => hg.ne hl h.1]
    exact hg.back hl
  have hsecond := stored_modify (f := ({ · with link := none })) hcell rfl a b
  simp only [Option.isSome_some, Option.isSome_none] at hfirst hsecond
  rw [disconnect, add_right_comm, hsecond, add_right_comm, hfirst, add_right_comm]

end Disconnect

/-! ## Moving into the active part -/

/-- An entry in use that was exempt is moved into the active part. -/
theorem Rearranges.parted_activate (hr : Rearranges g g' x f) {exempt : Line → Nat → Prop}
    (hg : g.Parted exempt g.InUse) (he : g.cell x i = some e) (hused : g.InUse e)
    (hexempt : ∀ j, exempt x j → j = i)
    (hparts : ∀ j, j < (g.cells x).size → (f j < g'.nrActive x ↔ j < g.nrActive x ∨ j = i)) :
    g'.Parted (fun z j => z ≠ x ∧ exempt z j) g'.InUse := by
  refine hr.parted hg (fun j e' he' _ => ?_) (fun z j hz hex => ⟨hz, hex⟩)
    fun z j e' hz he' => hr.inUse_retold
  rw [hparts j (lt_size_of_cell he'), hr.inUse_iff]
  by_cases hj : j = i
  · subst hj
    rw [he] at he'
    cases he'
    exact iff_of_true (.inr rfl) hused
  · rw [hg x j e' he' fun hex => hj (hexempt j hex)]
    exact ⟨fun h => h.resolve_right hj, .inl⟩

/-! ## Removing -/

/-- The grid before an entry is removed: the coefficient is not linked any more. -/
def cut (g : Grid) (x : Line) (p : Nat) (e : Entry Line) : Grid :=
  match e.link with
  | none => g
  | some k => g.disconnect x p e.partner k

/-- Drop the link of the counterpart of an entry. -/
def dropCounterpart (g : Grid) (e : Entry Line) : Grid :=
  match e.link with
  | none => g
  | some k => g.modify e.partner k ({ · with link := none })

section Cut

variable {p : Nat} (hg : g.Mirrored) (he : g.cell x p = some e)

include hg he

theorem mirrored_cut : (g.cut x p e).Mirrored := by
  obtain ⟨y, v, _ | k⟩ := e
  · exact hg
  · exact mirrored_disconnect hg he

theorem cells_cut : (g.cut x p e).cells x = (g.cells x).modify p ({ · with link := none }) := by
  obtain ⟨y, v, _ | k⟩ := e
  · apply Array.ext_getElem?
    intro j
    rw [Array.getElem?_modify]
    split
    · next hj =>
      subst hj
      change g.cell x p = (g.cell x p).map _
      rw [he, Option.map_some]
    · rfl
  · have hxy : x ≠ y := (hg.ne he).symm
    change ((g.modify x p _).modify y k _).cells x = _
    rw [modify, cells_update_of_ne hxy, modify, cells_update_self]

theorem cell_cut (hz : z ≠ x) (j : Nat) : (g.cut x p e).cell z j =
    (g.cell z j).map fun e' =>
      if z = e.partner ∧ e.link = some j then { e' with link := none } else e' := by
  obtain ⟨y, v, _ | k⟩ := e
  · simp [cut]
  · rw [cut, cell_disconnect (hg.ne he)]
    by_cases hpos : z = y ∧ k = j
    · obtain ⟨rfl, rfl⟩ := hpos
      simp
    · rw [if_neg fun h => h.elim (fun h => hz h.1) fun h => hpos ⟨h.1, h.2.symm⟩]
      simp only [Option.some.injEq, if_neg hpos, Option.map_id']

/-- When the moves of a line without one of its entries are told, and the counterpart of that entry
loses its link, the entry is sent to the end of the line and dropped there. -/
theorem Tells.rearranges_cut {moves : List (Move Line)} (h : Tells g g' x moves)
    (htracked : Tracked f ((g.cells x).modify p ({ · with link := none }))
      ((g'.cells x).push { e with link := none }) moves)
    (hperm : ((g'.cells x).push { e with link := none }).toList.Perm
      ((g.cells x).modify p ({ · with link := none })).toList) :
    Rearranges (g.cut x p e) ((g'.dropCounterpart e).push x { e with link := none }) x f := by
  have hcut := mirrored_cut hg he
  have hpartner : e.link.isSome = true → e.partner ≠ x := by
    obtain ⟨y, v, _ | k⟩ := e
    · simp
    · exact fun _ => hg.ne he
  have hcells : (g'.dropCounterpart e).cells x = g'.cells x := by
    rw [dropCounterpart]
    split
    · rfl
    · next k hk => rw [modify, cells_update_of_ne (hpartner (by rw [hk]; rfl)).symm]
  rw [← cells_cut hg he] at htracked hperm
  refine Tells.rearranges (⟨fun z j hz => ?_, fun z hz => ?_, ?_⟩ : Tells _ _ x moves) hcut ?_ ?_
  · have hdrop : (g'.dropCounterpart e).cell z j = (g'.cell z j).map fun e' =>
        if z = e.partner ∧ e.link = some j then { e' with link := none } else e' := by
      rw [dropCounterpart]
      split
      · next hnone => simp [hnone]
      · next k hk =>
        rw [cell_modify, hk]
        by_cases hpos : z = e.partner ∧ j = k
        · rw [if_pos hpos, hpos.1, hpos.2]
          simp
        · have hneg : ¬ (z = e.partner ∧ k = j) := fun h => hpos ⟨h.1, h.2.symm⟩
          simp only [Option.some.injEq, if_neg hpos, if_neg hneg, Option.map_id']
    -- No move concerns the counterpart: nothing is linked to it any more.
    have htold {e' : Entry Line} (he' : (g.cut x p e).cell z j = some e')
        (hnone : e'.link = none) : Move.told moves z j none = none := by
      have := hcut.told_eq htracked he'
      rw [retold] at this
      have hlink := congrArg (·.link) this
      rw [hnone] at hlink
      simp only at hlink
      rw [hlink]
      split <;> simp [hnone]
    rw [cell_push, if_neg fun h => hz h.1, hdrop, h.cell z j hz, cell_cut hg he hz, Option.map_map,
      Option.map_map]
    cases hcell : g.cell z j with
    | none => rfl
    | some e' =>
      have hcutcell := cell_cut hg he hz j
      rw [hcell] at hcutcell
      simp only [Option.map_some, Function.comp_apply, Option.some.injEq]
      by_cases hpos : z = e.partner ∧ e.link = some j
      · rw [if_pos hpos, if_pos hpos]
        rw [Option.map_some, if_pos hpos] at hcutcell
        rw [htold hcutcell rfl]
      · rw [if_neg hpos, if_neg hpos]
  · rw [cut, dropCounterpart]
    split <;> exact h.nrActive z hz
  · rw [cut, dropCounterpart]
    split <;> exact h.isActive
  · rw [push, cells_update_self, hcells]
    exact htracked
  · rw [push, cells_update_self, hcells]
    exact hperm

end Cut

section Removed

variable {p : Nat} (hr : Rearranges g (h.push x e) x f) (he : g.cell x p = some e)
  (hlink : e.link = none)

include hr hlink

/-- An unlinked entry that was sent to the end of its line is gone. -/
theorem mirrored_removed (hg : g.Mirrored) : h.Mirrored :=
  (hr.mirrored hg).congr fun _ _ _ _ _ => (linked_push hlink).symm

theorem stored_removed (a b : Line) :
    h.stored a b + (if a = x ∧ e.partner = b then {(e.value, false)} else 0) = g.stored a b := by
  rw [← hr.stored_eq, stored_push, hlink]
  rfl

omit hlink in
include he in
theorem parted_removed {exempt : Line → Nat → Prop} (hg : g.Parted exempt g.InUse)
    (hlast : f p = (h.cells x).size) (hexempt : ∀ j, exempt x j → j = p)
    (hparts : ∀ i, i < (g.cells x).size → i ≠ p → (f i < h.nrActive x ↔ i < g.nrActive x)) :
    h.Parted (fun z j => z ≠ x ∧ exempt z j) h.InUse := by
  have hpushed : (h.push x e).Parted
      (fun z j => (z = x ∧ j = (h.cells x).size) ∨ (z ≠ x ∧ exempt z j)) h.InUse := by
    refine hr.parted hg (fun i e' he' hnot => ?_) (fun z j hz hex => .inr ⟨hz, hex⟩)
      fun z j e' hz he' => hr.inUse_retold
    rw [not_or] at hnot
    have hi : i ≠ p := fun heq => hnot.1 ⟨rfl, by rw [heq, hlast]⟩
    change f i < h.nrActive x ↔ h.InUse e'
    rw [hparts i (lt_size_of_cell he') hi, hg x i e' he' fun hex => hi (hexempt i hex)]
    exact hr.inUse_iff.symm
  intro z j e' he' hnot
  have hlt := lt_size_of_cell he'
  refine hpushed z j e' ?_ (not_or.mpr ⟨?_, hnot⟩)
  · rw [cell_push, if_neg, he']
    rintro ⟨rfl, rfl⟩
    omega
  · rintro ⟨rfl, rfl⟩
    omega

end Removed

end Grid

end CertifiedLp
