import Mathlib
import CertifiedLp.Proofs.Incidence.Keyed

/-!
# Relocation of entries

Exchanging two entries, sorting a part and removing an entry move entries to other places. Nothing
is lost on the way, no entry changes its part unless it is one of two that are exchanged, and the
moves that an operation returns tell every counterpart where its entry is. An entry that is removed
hides from the moves by giving up its link first, and is returned with it.

All of this holds for every list whose active part is part of it. Allowed calls never make another
one, see `Incidence.Kept`.
-/

namespace CertifiedLp

variable {κ : Type}

/-- A rearrangement without a change of size sends different positions to different places. -/
theorem Tracked.injective [DecidableEq κ] {f : Nat → Nat} {es es' : Array (Entry κ)}
    {moves : List (Move κ)} (h : Tracked f es es' moves) (hsize : es'.size = es.size) {i j : Nat}
    (hi : i < es.size) (hj : j < es.size) (heq : f i = f j) : i = j := by
  have hmaps : Set.MapsTo f (Finset.range es.size) (Finset.range es.size) := by
    intro i hi
    have hget := h.forth (Array.getElem?_eq_getElem (Finset.mem_range.1 hi))
    exact Finset.mem_coe.2 (Finset.mem_range.2 (hsize ▸ (Array.getElem?_eq_some_iff.1 hget).1))
  have hsurj : Set.SurjOn f (Finset.range es.size) (Finset.range es.size) := by
    intro j hj
    have hlt : j < es'.size := hsize ▸ Finset.mem_range.1 hj
    obtain ⟨i, hi, hget⟩ := h.back (Array.getElem?_eq_getElem hlt)
    exact ⟨i, Finset.mem_coe.2 (Finset.mem_range.2 (Array.getElem?_eq_some_iff.1 hget).1), hi⟩
  exact Finset.injOn_of_surjOn_of_card_le f hmaps hsurj le_rfl
    (Finset.mem_coe.2 (Finset.mem_range.2 hi)) (Finset.mem_coe.2 (Finset.mem_range.2 hj)) heq

namespace Incidence

variable [Reference κ] {l : Incidence κ} {part : Part} {move : Move κ} {a b position : Nat}

/-! ## The positions in the moves -/

theorem exists_of_mem_moves_swap (hmem : move ∈ (l.swap a b).2) : a ≠ b ∧
    (move.position = a ∨ move.position = b) ∧
      (l.swap a b).1.link? move.position = some move.counterpart := by
  by_cases hab : a = b
  · rw [swap, if_pos hab] at hmem
    cases hmem
  · rw [moves_swap hab, List.mem_filterMap] at hmem
    obtain ⟨q, hq, hmove⟩ := hmem
    obtain ⟨e, he, hlink⟩ := Option.bind_eq_some_iff.1 hmove
    obtain ⟨k, hk, rfl⟩ := Option.map_eq_some_iff.1 hlink
    refine ⟨hab, by simpa using hq, ?_⟩
    rw [link?, he, Option.bind_some, hk]

/-- If an entry without a link goes to the second place, then the only move is to the first one. -/
theorem position_of_mem_moves_swap (ha : a < l.size) (hb : b < l.size) (hlink : l.link? a = none)
    (hmem : move ∈ (l.swap a b).2) : a ≠ b ∧ move.position = a := by
  obtain ⟨hab, hposition | hposition, hmoved⟩ := exists_of_mem_moves_swap hmem
  · exact ⟨hab, hposition⟩
  · rw [hposition, link?, entry?_swap_right ha hb] at hmoved
    cases hmoved.symm.trans hlink

theorem position_lt_of_mem_moves_sort (hactive : l.nrActive ≤ l.size)
    (hmem : move ∈ (l.sort part).2) : move.position < l.size := by
  obtain ⟨_, _, j, hj, -, -, hposition⟩ := exists_of_mem_moves_sort hmem
  have hlength := (List.getElem?_eq_some_iff.1 hj).1
  rw [length_sorted hactive] at hlength
  have hsize := range_snd_le hactive part
  omega

/-! ## Bringing an entry to the end -/

/-- All moves are to places before the end, where the entry without a link goes. -/
theorem position_lt_of_mem_moves_bringToEnd (hactive : l.nrActive ≤ l.size)
    (hposition : position < l.size) (hlink : l.link? position = none)
    (hmem : move ∈ (l.bringToEnd position).2) : move.position < l.size - 1 := by
  rw [bringToEnd] at hmem
  dsimp only at hmem
  split at hmem
  · next hpart =>
    have hlast : l.nrActive - 1 < l.size := by omega
    obtain hmem | hmem := List.mem_append.1 hmem
    · have h := position_of_mem_moves_swap hposition hlast hlink hmem
      omega
    · have hlink' : ((l.swap position (l.nrActive - 1)).1.setNrActive (l.nrActive - 1)).link?
          (l.nrActive - 1) = none := by
        rw [link?, entry?_setNrActive, entry?_swap_right hposition hlast]
        exact hlink
      have h := position_of_mem_moves_swap (by simpa using hlast) (by simp; omega) hlink' hmem
      omega
  · have h := position_of_mem_moves_swap hposition (by omega) hlink hmem
    omega

/-- The entry that is removed is returned as it was. -/
theorem removed?_eq (hactive : l.nrActive ≤ l.size) (position : Nat) :
    l.removed? position = l.entry? position := by
  rw [removed?]
  split
  · next hsize => exact (Array.getElem?_eq_none hsize).symm
  · next hsize =>
    have hposition : position < (l.setLink position none).size := by
      rw [size_setLink]
      omega
    dsimp only
    rw [size_bringToEnd, entry?_bringToEnd (by simpa [size] using hactive) hposition,
      entry?_setLink_self, Option.map_map, link?]
    cases l.entry? position with
    | none => rfl
    | some e => rfl

/-- No entry is told to be where the list does not reach any more. -/
theorem position_lt_of_mem_moves_remove (hactive : l.nrActive ≤ l.size)
    (hposition : position < l.size) (hmem : move ∈ (l.remove position).2) :
    move.position < (l.remove position).1.size := by
  have hcut := size_setLink l position none
  rw [remove_eq hposition] at hmem
  rw [size_remove hposition, ← hcut]
  apply position_lt_of_mem_moves_bringToEnd _ (hcut.symm ▸ hposition) _ hmem
  · rw [nrActive_setLink, hcut]
    exact hactive
  · rw [link?, entry?_setLink_self]
    cases l.entry? position <;> rfl

/-! ## Places -/

variable [DecidableEq κ] {l' : Incidence κ} {moves : List (Move κ)} {stays : Nat → Prop}
variable {place : Nat → Nat} {e : Entry κ}

/-- The entries that stay in a list go to places of their own in another list, and the moves tell
their counterparts so. -/
structure Relocated (l l' : Incidence κ) (moves : List (Move κ)) (stays : Nat → Prop)
    (place : Nat → Nat) : Prop where
  /-- Every entry that stays is at its place. -/
  entry : ∀ i e, stays i → l.entries[i]? = some e → l'.entries[place i]? = some e
  /-- No two entries go to the same place. -/
  injective : ∀ i j, i < l.size → j < l.size → stays i → stays j → place i = place j → i = j
  /-- A counterpart that knew the old position of its entry is told the new one. -/
  told : ∀ i e k, stays i → l.entries[i]? = some e → e.link = some k →
    Move.told moves e.partner k (some i) = some (place i)
  /-- Every position in the moves is within the list. -/
  within : ∀ move ∈ moves, move.position < l'.size

/-- Every entry that stays is in the same part as before. -/
def KeepsParts (l l' : Incidence κ) (stays : Nat → Prop) (place : Nat → Nat) : Prop :=
  ∀ i, i < l.size → stays i → (place i < l'.nrActive ↔ i < l.nrActive)

omit [Reference κ] in
theorem relocated_of_tracked (h : Tracked place l.entries l'.entries moves)
    (hsize : l'.size = l.size) (hwithin : ∀ move ∈ moves, move.position < l'.size) :
    l.Relocated l' moves (fun _ => True) place where
  entry _ _ _ he := h.forth he
  injective _ _ hi hj _ _ := h.injective hsize hi hj
  told _ _ _ _ he hlink := h.told he hlink
  within := hwithin

theorem relocated_swap (hdistinct : Distinct l.entries) (ha : a < l.size) (hb : b < l.size) :
    l.Relocated (l.swap a b).1 (l.swap a b).2 (fun _ => True) (Equiv.swap a b) := by
  apply relocated_of_tracked (tracked_swap hdistinct ha hb) (size_swap l a b)
  intro move hmem
  obtain ⟨-, hposition, -⟩ := exists_of_mem_moves_swap hmem
  rw [size_swap]
  omega

theorem relocated_sort (hdistinct : Distinct l.entries) (hactive : l.nrActive ≤ l.size)
    (part : Part) : ∃ place, l.Relocated (l.sort part).1 (l.sort part).2 (fun _ => True) place ∧
      l.KeepsParts (l.sort part).1 (fun _ => True) place := by
  obtain ⟨place, htracked, hparts⟩ := tracked_sort hdistinct hactive part
  refine ⟨place, relocated_of_tracked htracked (size_sort hactive part) ?_, ?_⟩
  · intro move hmem
    rw [size_sort hactive]
    exact position_lt_of_mem_moves_sort hactive hmem
  · intro i hi _
    rw [nrActive_sort]
    exact hparts i hi

/-- The moves of a removal do not refer to the entry that is removed. -/
theorem not_mem_moves_remove (hdistinct : Distinct l.entries) (hactive : l.nrActive ≤ l.size)
    (he : l.entries[position]? = some e) (hmem : move ∈ (l.remove position).2) :
    ¬ (e.partner = move.partner ∧ e.link = some move.counterpart) := by
  rintro ⟨hpartner, hlink⟩
  obtain ⟨_, htracked, -⟩ := tracked_remove hdistinct hactive he
  obtain ⟨i, e', he', hpartner', hlink'⟩ := htracked.truthful hmem
  rw [entries_setLink, Array.getElem?_modify] at he'
  split at he'
  · -- The entry at this position has no link.
    obtain ⟨_, -, rfl⟩ := Option.map_eq_some_iff.1 he'
    cases hlink'
  · next hne =>
    exact hne (hdistinct he he' (hpartner.trans hpartner'.symm) (by simp [hlink])
      (hlink.trans hlink'.symm))

theorem perm_remove (hdistinct : Distinct l.entries) (hactive : l.nrActive ≤ l.size)
    (he : l.entries[position]? = some e) :
    (l.remove position).1.entries.toList.Perm (l.entries.toList.eraseIdx position) := by
  obtain ⟨-, -, hperm, -⟩ := tracked_remove hdistinct hactive he
  obtain ⟨hposition, rfl⟩ := Array.getElem?_eq_some_iff.1 he
  have hposition' : position < l.entries.toList.length := by simpa using hposition
  rw [Array.toList_push, entries_setLink, Array.toList_modify,
    List.modify_eq_take_cons_drop hposition', Array.getElem_toList] at hperm
  rw [List.eraseIdx_eq_take_drop_succ]
  have hfront := (List.perm_append_singleton _ _).symm.trans (hperm.trans List.perm_middle)
  exact hfront.cons_inv

theorem relocated_remove (hdistinct : Distinct l.entries) (hactive : l.nrActive ≤ l.size)
    (he : l.entries[position]? = some e) :
    ∃ place, l.Relocated (l.remove position).1 (l.remove position).2 (· ≠ position) place ∧
      l.KeepsParts (l.remove position).1 (· ≠ position) place := by
  obtain ⟨place, htracked, hperm, hend, hparts, -⟩ := tracked_remove hdistinct hactive he
  have hposition : position < l.size := (Array.getElem?_eq_some_iff.1 he).1
  have hsize : (l.setLink position none).entries.size = l.size := size_setLink l position none
  have hsame : ((l.remove position).1.entries.push { e with link := none }).size =
      (l.setLink position none).entries.size := by
    rw [← Array.length_toList, hperm.length_eq, Array.length_toList]
  have hcut {i : Nat} (hne : i ≠ position) :
      (l.setLink position none).entries[i]? = l.entries[i]? := by
    rw [entries_setLink, Array.getElem?_modify, if_neg hne.symm]
  have hinjective {i j : Nat} (hi : i < l.size) (hj : j < l.size) (heq : place i = place j) :
      i = j := htracked.injective hsame (hsize.symm ▸ hi) (hsize.symm ▸ hj) heq
  refine ⟨place, ⟨?_, ?_, ?_, ?_⟩, hparts⟩
  · intro i e' hne he'
    have hplace := htracked.forth ((hcut hne).trans he')
    -- The end is the place of the entry that is removed.
    have hbefore : place i ≠ (l.remove position).1.entries.size := by
      intro heq
      exact hne (hinjective (Array.getElem?_eq_some_iff.1 he').1 hposition (heq.trans hend.symm))
    rwa [Array.getElem?_push, if_neg hbefore] at hplace
  · exact fun i j hi hj _ _ => hinjective hi hj
  · intro i e' k hne he' hlink
    exact htracked.told ((hcut hne).trans he') hlink
  · exact fun move => position_lt_of_mem_moves_remove hactive hposition

/-! ## Operations that move entries -/

/-- Entries that are exchanged or sorted are those from before, and so are the entries that remain
after a removal, which returns the other one as it was. All of them keep their part, except that an
exchange moves its two entries. For every linked entry that is still there, the moves tell a
counterpart that knew its old position the new one. No move refers to an entry that is removed, and
every position in the moves is within the list. -/
theorem moves_describe_relocation (hactive : l.nrActive ≤ l.size)
    (hdistinct : Distinct l.entries) :
    (∀ a b, a < l.size → b < l.size →
      (l.swap a b).1.entries.toList.Perm l.entries.toList ∧
      (l.swap a b).1.nrActive = l.nrActive ∧
      l.Relocated (l.swap a b).1 (l.swap a b).2 (fun _ => True) (Equiv.swap a b)) ∧
    (∀ part, (l.sort part).1.entries.toList.Perm l.entries.toList ∧
      ∃ place, l.Relocated (l.sort part).1 (l.sort part).2 (fun _ => True) place ∧
        l.KeepsParts (l.sort part).1 (fun _ => True) place) ∧
    ∀ position, position < l.size → ∃ e,
      l.entries[position]? = some e ∧ l.removed? position = some e ∧
      (l.remove position).1.entries.toList.Perm (l.entries.toList.eraseIdx position) ∧
      (∃ place, l.Relocated (l.remove position).1 (l.remove position).2 (· ≠ position) place ∧
        l.KeepsParts (l.remove position).1 (· ≠ position) place) ∧
      ∀ move ∈ (l.remove position).2,
        ¬ (e.partner = move.partner ∧ e.link = some move.counterpart) := by
  refine ⟨fun a b ha hb => ?_, fun part => ?_, fun position hposition => ?_⟩
  · exact ⟨perm_swap ha hb, nrActive_swap l a b, relocated_swap hdistinct ha hb⟩
  · exact ⟨perm_sort hactive part, relocated_sort hdistinct hactive part⟩
  · have he := Array.getElem?_eq_getElem hposition
    refine ⟨_, he, (removed?_eq hactive position).trans he, perm_remove hdistinct hactive he,
      relocated_remove hdistinct hactive he, ?_⟩
    exact fun move => not_mem_moves_remove hdistinct hactive he

/-- The first of two active entries is removed from a list of three. It is returned, the other two
remain, and nobody is told a position of it. -/
theorem moves_describe_relocation_of_three :
    let l : Incidence Nat := ⟨#[⟨1, 1, some 10⟩, ⟨2, 2, some 20⟩, ⟨3, 3, none⟩], 2, 1, 0, 0⟩
    l.nrActive ≤ l.size ∧ Distinct l.entries ∧ l.removed? 0 = some ⟨1, 1, some 10⟩ ∧
      (l.remove 0).1.entries.toList.Perm [⟨2, 2, some 20⟩, ⟨3, 3, none⟩] ∧
      ∀ move ∈ (l.remove 0).2, ¬ (1 = move.partner ∧ some 10 = some move.counterpart) := by
  intro l
  have hactive : l.nrActive ≤ l.size := by decide
  have hdistinct : Distinct l.entries := by
    have hpartner {i : Nat} {e : Entry Nat} (he : l.entries[i]? = some e) : e.partner = i + 1 := by
      have hi : i < 3 := (Array.getElem?_eq_some_iff.1 he).1
      interval_cases i <;> (obtain rfl := Option.some.inj he; rfl)
    intro i j e e' hi hj hsame _ _
    rw [hpartner hi, hpartner hj] at hsame
    omega
  obtain ⟨-, -, hremove⟩ := moves_describe_relocation hactive hdistinct
  obtain ⟨e, he, hremoved, hperm, -, hmoves⟩ := hremove 0 (by decide)
  obtain rfl := Option.some.inj he
  exact ⟨hactive, hdistinct, hremoved, hperm, hmoves⟩

end Incidence

end CertifiedLp
