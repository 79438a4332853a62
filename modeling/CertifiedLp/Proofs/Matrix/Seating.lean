import Mathlib
import CertifiedLp.Proofs.Matrix.Places

/-!
# Rows that move together

Several rows are put elsewhere in the active linear program, one after the other. When rows are taken
out of the list of active rows and the others close up, each row ends where it is in the new list.
-/

namespace CertifiedLp

variable {p : Places} {r : RowRef} {position : Option Nat} {kept removed : List RowRef}
variable {first : Nat}

/-! ## Marked elements -/

/-- Before the first marked element, all are kept. -/
theorem take_unmarked {α : Type} {xs : List α} {mask : List Bool}
    (hsize : mask.length = xs.length) (hfirst : mask.findIdx? id = some first) :
    (((xs.zip mask).filter (!·.2)).map (·.1)).take first = xs.take first := by
  induction mask generalizing xs first with
  | nil => simp at hfirst
  | cons marked mask ih =>
    cases xs with
    | nil => simp at hsize
    | cons x xs =>
      rw [List.findIdx?_cons] at hfirst
      cases marked with
      | true =>
        obtain rfl : 0 = first := by simpa using hfirst
        simp
      | false =>
        obtain ⟨k, hk, rfl⟩ : ∃ k, mask.findIdx? id = some k ∧ k + 1 = first := by
          simpa using hfirst
        simp [ih (by simpa using hsize) hk]

/-- An element is either marked or not. -/
theorem perm_unmarked_marked {α : Type} {xs : List α} {mask : List Bool}
    (hsize : mask.length = xs.length) :
    (((xs.zip mask).filter (!·.2)).map (·.1) ++
      ((xs.zip mask).filter (·.2)).map (·.1)).Perm xs := by
  rw [← List.map_append]
  refine ((List.perm_append_comm.trans (List.filter_append_perm Prod.snd _)).map _).trans
    (List.Perm.of_eq ?_)
  exact List.map_fst_zip (Nat.le_of_eq hsize.symm)

/-! ## Moves -/

namespace Places

/-- Put rows elsewhere in the active linear program, one after the other. -/
def seat (p : Places) (moves : List (RowRef × Option Nat)) : Places :=
  moves.foldl (fun p x => p.moveRow x.1 x.2) p

theorem seat_append (p : Places) (moves moves' : List (RowRef × Option Nat)) :
    p.seat (moves ++ moves') = (p.seat moves).seat moves' := List.foldl_append ..

theorem isSome_row_seat (p : Places) (moves : List (RowRef × Option Nat)) (r : RowRef) :
    ((p.seat moves).row r).isSome = (p.row r).isSome := by
  induction moves generalizing p with
  | nil => rfl
  | cons x moves ih => exact (ih _).trans (p.isSome_row_modifyRow ..)

variable {moves : List (RowRef × Option Nat)}

/-- A row that none of the moves is about stays where it is. -/
theorem activeRow_seat_of_not_mem (h : ∀ x ∈ moves, x.1 ≠ r) :
    (p.seat moves).activeRow r = p.activeRow r := by
  induction moves generalizing p with
  | nil => rfl
  | cons x moves ih =>
    refine (ih fun y hy => h y (List.mem_cons_of_mem _ hy)).trans ?_
    exact congrArg (·.bind RowPlace.active) (row_modifyRow_of_ne (h x List.mem_cons_self).symm)

/-- If no row moves twice, then every row ends where its move takes it. -/
theorem activeRow_seat (hnodup : (moves.map (·.1)).Nodup) (hr : (r, position) ∈ moves)
    (hlive : (p.row r).isSome = true) : (p.seat moves).activeRow r = position := by
  induction moves generalizing p with
  | nil => cases hr
  | cons x moves ih =>
    rw [List.map_cons, List.nodup_cons] at hnodup
    rcases List.mem_cons.mp hr with rfl | hmem
    · obtain ⟨place, hplace⟩ := Option.isSome_iff_exists.mp hlive
      have hstays : ∀ x ∈ moves, x.1 ≠ r := fun x hx heq =>
        hnodup.1 (List.mem_map.mpr ⟨x, hx, heq⟩)
      refine (activeRow_seat_of_not_mem (p := p.moveRow r position) hstays).trans ?_
      rw [activeRow_moveRow hplace, if_pos rfl]
    · exact ih hnodup.2 hmem ((p.isSome_row_modifyRow ..).trans hlive)

end Places

/-! ## Closing gaps -/

/-- The moves that take some rows out of a list and close the gaps: the rows that are kept move from
the first gap on. -/
def closingMoves (kept removed : List RowRef) (first : Nat) : List (RowRef × Option Nat) :=
  removed.map (·, none) ++ ((kept.drop first).zipIdx first).map fun x => (x.1, some x.2)

theorem fst_closingMoves (kept removed : List RowRef) (first : Nat) :
    (closingMoves kept removed first).map (·.1) = removed ++ kept.drop first := by
  rw [closingMoves, List.map_append, List.map_map, List.map_map]
  congr 1
  · exact List.map_id _
  · exact List.zipIdx_map_fst ..

/-- No row moves twice. -/
theorem nodup_closingMoves (h : (kept ++ removed).Nodup) (first : Nat) :
    ((closingMoves kept removed first).map (·.1)).Nodup := by
  rw [fst_closingMoves]
  exact (List.perm_append_comm.nodup_iff.mp h).sublist
    ((List.Sublist.refl removed).append (List.drop_sublist first kept))

theorem mem_drop_of_getElem? {α : Type} {xs : List α} {x : α} {i : Nat} (h : xs[i]? = some x)
    (hi : first ≤ i) : x ∈ xs.drop first := by
  refine List.mem_iff_getElem?.mpr ⟨i - first, ?_⟩
  rw [List.getElem?_drop, Nat.add_sub_cancel' hi, h]

/-- After these moves, the rows that are kept are where they are in their list. -/
theorem Indexes.seat_closingMoves {rows : Array RowRef}
    (h : Indexes (fun _ => True) p.activeRow rows) (hperm : (kept ++ removed).Perm rows.toList)
    (htake : kept.take first = rows.toList.take first) :
    Indexes (fun _ => True) (p.seat (closingMoves kept removed first)).activeRow kept.toArray := by
  have hnodup : (kept ++ removed).Nodup := hperm.nodup_iff.mpr h.nodup
  have hmoves := nodup_closingMoves hnodup first
  have hlive {r : RowRef} (hr : r ∈ kept ++ removed) : (p.row r).isSome = true :=
    Places.isSome_row_of_mem h (Array.mem_toList_iff.mp (hperm.mem_iff.mp hr))
  intro r _ i
  rw [List.getElem?_toArray]
  by_cases hremoved : r ∈ removed
  · -- a row that is taken out
    have hmove : (r, none) ∈ closingMoves kept removed first :=
      List.mem_append_left _ (List.mem_map_of_mem hremoved)
    rw [Places.activeRow_seat hmoves hmove
      (hlive (List.mem_append_right _ hremoved))]
    refine ⟨fun hi => (nomatch hi), fun hi => ?_⟩
    exact ((List.nodup_append.mp hnodup).2.2 r (List.mem_of_getElem? hi) r hremoved rfl).elim
  by_cases hbehind : r ∈ kept.drop first
  · -- a row that moves
    obtain ⟨k, hk⟩ := List.mem_iff_getElem?.mp hbehind
    have hmem : (r, first + k) ∈ (kept.drop first).zipIdx first := by
      rw [List.mk_mem_zipIdx_iff_le_and_getElem?_sub, Nat.add_sub_cancel_left]
      exact ⟨Nat.le_add_right .., hk⟩
    rw [Places.activeRow_seat hmoves (List.mem_append_right _ (List.mem_map_of_mem hmem))
      (hlive (List.mem_append_left _ (List.mem_of_mem_drop hbehind))), Option.some.injEq]
    rw [List.getElem?_drop] at hk
    have hkept : kept.Nodup := (List.nodup_append.mp hnodup).1
    rw [← List.getElem?_inj (List.getElem?_eq_some_iff.mp hk).1 hkept, hk, eq_comm]
  · -- a row before the first gap
    have hfront {j : Nat} (hj : j < first) : kept[j]? = rows[j]? := by
      have hget := congrArg (·[j]?) htake
      simpa only [List.getElem?_take, if_pos hj, Array.getElem?_toList] using hget
    have hstays : ∀ x ∈ closingMoves kept removed first, x.1 ≠ r := by
      rintro x hx rfl
      have hmem := List.mem_map_of_mem (f := (·.1)) hx
      rw [fst_closingMoves, List.mem_append] at hmem
      exact hmem.elim hremoved hbehind
    rw [Places.activeRow_seat_of_not_mem hstays, h r trivial i]
    constructor
    · intro hi
      have hmem : r ∈ kept ++ removed :=
        hperm.mem_iff.mpr (Array.mem_toList_iff.mpr (Array.mem_of_getElem? hi))
      obtain ⟨j, hj⟩ := List.mem_iff_getElem?.mp ((List.mem_append.mp hmem).resolve_right hremoved)
      have hlt : j < first := Nat.lt_of_not_le fun hle => hbehind (mem_drop_of_getElem? hj hle)
      rwa [h.injective trivial hi (hfront hlt ▸ hj)]
    · intro hi
      have hlt : i < first := Nat.lt_of_not_le fun hle => hbehind (mem_drop_of_getElem? hi hle)
      rw [← hfront hlt, hi]

theorem Shifted.seat (hp : ∀ {r place}, p.row r = some place → 0 < place.nrUses)
    (moves : List (RowRef × Option Nat)) : Shifted p (p.seat moves) := by
  induction moves generalizing p with
  | nil => exact .refl hp
  | cons x moves ih =>
    have hmoved : Shifted p (p.moveRow x.1 x.2) := .moveRow hp x.1 x.2
    exact hmoved.trans (ih hmoved.used)

end CertifiedLp
