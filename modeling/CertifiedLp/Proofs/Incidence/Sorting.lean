import Mathlib
import CertifiedLp.Proofs.Incidence.Moves

/-!
# Sorting a part

Sorting rearranges the entries of one part and leaves those of the other part where they are. The
part is in ascending order afterwards, and the moves say where the entries are.
-/

namespace CertifiedLp

open Reference (index)

variable {κ : Type}

namespace Incidence

variable {l : Incidence κ} {part : Part} {e : Entry κ} {i j : Nat}

theorem range_fst_le (hactive : l.nrActive ≤ l.size) (part : Part) :
    (l.range part).1 ≤ (l.range part).2 := by
  cases part
  · exact Nat.zero_le _
  · exact hactive

theorem range_snd_le (hactive : l.nrActive ≤ l.size) (part : Part) :
    (l.range part).2 ≤ l.size := by
  cases part
  · exact hactive
  · exact Nat.le_refl _

theorem map_snd_positioned (hactive : l.nrActive ≤ l.size) (part : Part) :
    (l.positioned part).map (·.2) =
      List.range' (l.range part).1 ((l.range part).2 - (l.range part).1) := by
  have hsnd : (l.range part).2 ≤ l.entries.size := range_snd_le hactive part
  have hpositioned : l.positioned part =
      (l.entries.extract (l.range part).1 (l.range part).2).toList.zipIdx (l.range part).1 := rfl
  rw [hpositioned, List.zipIdx_map_snd]
  congr 1
  rw [Array.length_toList, Array.size_extract, Nat.min_eq_left hsnd]

variable [Reference κ]

theorem nrActive_sort (l : Incidence κ) (part : Part) : (l.sort part).1.nrActive = l.nrActive := by
  rw [sort]
  split <;> simp

theorem isSorted_sort (l : Incidence κ) (part : Part) : (l.sort part).1.isSorted part = true := by
  rw [sort]
  split
  · assumption
  · simp [isSorted]

/-- The entries of a part in order, each with its old position. -/
def sorted (l : Incidence κ) (part : Part) : List (Entry κ × Nat) :=
  (l.positioned part).mergeSort fun a b => index a.1.partner ≤ index b.1.partner

theorem mem_sorted_iff (hactive : l.nrActive ≤ l.size) :
    (e, i) ∈ l.sorted part ↔
      l.entries[i]? = some e ∧ (l.range part).1 ≤ i ∧ i < (l.range part).2 := by
  have hsnd := range_snd_le hactive part
  have hpositioned : l.positioned part =
      (l.entries.extract (l.range part).1 (l.range part).2).toList.zipIdx (l.range part).1 := rfl
  rw [sorted, List.mem_mergeSort, hpositioned, List.mk_mem_zipIdx_iff_le_and_getElem?_sub,
    Array.getElem?_toList, Array.getElem?_extract]
  constructor
  · rintro ⟨hle, hget⟩
    split at hget
    · rw [Nat.add_sub_cancel' hle] at hget
      exact ⟨hget, hle, by omega⟩
    · cases hget
  · rintro ⟨hget, hle, hlt⟩
    refine ⟨hle, ?_⟩
    rw [if_pos (by simp only [size] at hsnd; omega), Nat.add_sub_cancel' hle, hget]

theorem length_sorted (hactive : l.nrActive ≤ l.size) (part : Part) :
    (l.sorted part).length = (l.range part).2 - (l.range part).1 := by
  have hlength := congrArg List.length (map_snd_positioned hactive part)
  rw [List.length_map, List.length_range'] at hlength
  rw [sorted, List.length_mergeSort, hlength]

/-- No position occurs twice. -/
theorem nodup_sorted (hactive : l.nrActive ≤ l.size) (part : Part) :
    ((l.sorted part).map (·.2)).Nodup := by
  have hperm : ((l.sorted part).map (·.2)).Perm ((l.positioned part).map (·.2)) :=
    (List.mergeSort_perm _ _).map _
  rw [hperm.nodup_iff, map_snd_positioned hactive]
  exact List.nodup_range'

/-- Where sorting puts the entry at a position. -/
def sortTarget (l : Incidence κ) (part : Part) (i : Nat) : Nat :=
  if (l.range part).1 ≤ i ∧ i < (l.range part).2 then
    (l.range part).1 + ((l.sorted part).map (·.2)).idxOf i
  else i

theorem sortTarget_of_getElem? (hactive : l.nrActive ≤ l.size)
    (h : (l.sorted part)[j]? = some (e, i)) :
    l.sortTarget part i = (l.range part).1 + j := by
  obtain ⟨-, hle, hlt⟩ := (mem_sorted_iff hactive).mp (List.mem_of_getElem? h)
  obtain ⟨hj, hval⟩ := List.getElem?_eq_some_iff.mp h
  rw [sortTarget, if_pos ⟨hle, hlt⟩]
  congr 1
  have hj' : j < ((l.sorted part).map (·.2)).length := by simpa using hj
  have hi : i = ((l.sorted part).map (·.2))[j] := by simp [hval]
  rw [hi]
  exact (nodup_sorted hactive part).idxOf_getElem j _

/-- A part is sorted without a look at the other part. -/
theorem getElem?_sort (hactive : l.nrActive ≤ l.size) (hsorted : l.isSorted part = false) (j : Nat) :
    (l.sort part).1.entries[j]? =
      if (l.range part).1 ≤ j ∧ j < (l.range part).2 then
        ((l.sorted part)[j - (l.range part).1]?).map (·.1)
      else l.entries[j]? := by
  have hfst := range_fst_le hactive part
  have hsnd := range_snd_le hactive part
  have hlength := length_sorted hactive part
  have hentries : (l.sort part).1.entries =
      l.entries.extract 0 (l.range part).1 ++ ((l.sorted part).map (·.1)).toArray ++
        l.entries.extract (l.range part).2 l.size := by
    rw [sort, hsorted]
    simp [sorted]
  have hsize : l.size = l.entries.size := rfl
  have hleft : (l.entries.extract 0 (l.range part).1).size = (l.range part).1 := by
    rw [Array.size_extract]
    omega
  rw [hentries, Array.getElem?_append, Array.getElem?_append, Array.size_append, hleft,
    List.size_toArray, List.length_map, hlength, Array.getElem?_extract, Array.getElem?_extract]
  by_cases hlow : j < (l.range part).1
  · rw [if_pos (by omega), if_pos (by omega), if_pos (by omega), if_neg (by omega), Nat.zero_add]
  · by_cases hhigh : j < (l.range part).2
    · rw [if_pos (by omega), if_neg (by omega), if_pos (by omega), List.getElem?_toArray,
        List.getElem?_map]
    · have hj : (l.range part).2 + (j - ((l.range part).1 + ((l.range part).2 - (l.range part).1))) =
          j := by omega
      rw [if_neg (by omega), hj]
      conv_rhs => rw [if_neg (fun h => hhigh h.2)]
      split
      · rfl
      · rw [Array.getElem?_eq_none (by omega)]

theorem perm_sort (hactive : l.nrActive ≤ l.size) (part : Part) :
    (l.sort part).1.entries.toList.Perm l.entries.toList := by
  by_cases hsorted : l.isSorted part = true
  · rw [sort, if_pos hsorted]
  · have hfst := range_fst_le hactive part
    have hsnd : (l.range part).2 ≤ l.entries.size := range_snd_le hactive part
    have hentries : (l.sort part).1.entries.toList =
        (l.entries.extract 0 (l.range part).1).toList ++ (l.sorted part).map (·.1) ++
          (l.entries.extract (l.range part).2 l.entries.size).toList := by
      rw [sort, if_neg hsorted]
      simp [sorted, size]
    have hmiddle : ((l.sorted part).map (·.1)).Perm
        (l.entries.extract (l.range part).1 (l.range part).2).toList := by
      have hfirsts : (l.positioned part).map (·.1) =
          (l.entries.extract (l.range part).1 (l.range part).2).toList := List.zipIdx_map_fst _ _
      rw [← hfirsts]
      exact (List.mergeSort_perm _ _).map _
    have hjoin : l.entries = l.entries.extract 0 (l.range part).1 ++
        l.entries.extract (l.range part).1 (l.range part).2 ++
          l.entries.extract (l.range part).2 l.entries.size := by
      rw [Array.extract_append_extract, Nat.zero_min, Nat.max_eq_right hfst,
        Array.extract_append_extract, Nat.zero_min, Nat.max_eq_right hsnd, Array.extract_size]
    rw [hentries]
    conv_rhs => rw [hjoin, Array.toList_append, Array.toList_append]
    exact (hmiddle.append_left _).append_right _

theorem sortTarget_mem_part (hactive : l.nrActive ≤ l.size) (hi : i < l.size) :
    l.sortTarget part i < l.nrActive ↔ i < l.nrActive := by
  have hget : l.entries[i]? = some l.entries[i] := Array.getElem?_eq_getElem hi
  by_cases hpart : (l.range part).1 ≤ i ∧ i < (l.range part).2
  · obtain ⟨j, hj⟩ := List.getElem?_of_mem ((mem_sorted_iff hactive).mpr ⟨hget, hpart⟩)
    have hlt := (List.getElem?_eq_some_iff.mp hj).1
    rw [length_sorted hactive] at hlt
    rw [sortTarget_of_getElem? hactive hj]
    cases part <;> simp only [range] at hpart hlt ⊢ <;> omega
  · rw [sortTarget, if_neg hpart]

/-- A move of a sorted part is that of an entry at its new position. -/
theorem exists_of_mem_moves_sort {move : Move κ} (hmem : move ∈ (l.sort part).2) : ∃ e i j,
    (l.sorted part)[j]? = some (e, i) ∧ e.partner = move.partner ∧
      e.link = some move.counterpart ∧ move.position = (l.range part).1 + j := by
  rw [sort] at hmem
  split at hmem
  · cases hmem
  · obtain ⟨⟨⟨e, i⟩, new⟩, hnew, hmove⟩ := List.mem_filterMap.mp hmem
    dsimp only at hmove
    split at hmove
    · cases hmove
    · obtain ⟨k, hk, rfl⟩ := Option.map_eq_some_iff.mp hmove
      obtain ⟨hle, hget⟩ := List.mk_mem_zipIdx_iff_le_and_getElem?_sub.mp hnew
      exact ⟨e, i, _, hget, rfl, hk, (Nat.add_sub_cancel' hle).symm⟩

theorem tracked_sort [DecidableEq κ] (hdistinct : Distinct l.entries)
    (hactive : l.nrActive ≤ l.size) (part : Part) :
    ∃ f, Tracked f l.entries (l.sort part).1.entries (l.sort part).2 ∧
      ∀ i, i < l.size → (f i < l.nrActive ↔ i < l.nrActive) := by
  by_cases hsorted : l.isSorted part = true
  · rw [sort, if_pos hsorted]
    exact ⟨id, .refl _, fun _ _ => Iff.rfl⟩
  have hget := getElem?_sort hactive (Bool.eq_false_iff.mpr hsorted)
  have hmoves : (l.sort part).2 = ((l.sorted part).zipIdx (l.range part).1).filterMap
      fun p => if p.2 = p.1.2 then none
        else p.1.1.link.map fun counterpart => ⟨p.1.1.partner, counterpart, p.2⟩ := by
    rw [sort, if_neg hsorted]
    rfl
  -- Where an entry of the part is in the sorted list.
  have hplace {i : Nat} {e : Entry κ} (he : l.entries[i]? = some e)
      (hpart : (l.range part).1 ≤ i ∧ i < (l.range part).2) :
      ∃ j, (l.sorted part)[j]? = some (e, i) ∧ l.sortTarget part i = (l.range part).1 + j ∧
        (l.range part).1 + j < (l.range part).2 := by
    obtain ⟨j, hj⟩ := List.getElem?_of_mem ((mem_sorted_iff hactive).mpr ⟨he, hpart⟩)
    have hlt := (List.getElem?_eq_some_iff.mp hj).1
    rw [length_sorted hactive] at hlt
    exact ⟨j, hj, sortTarget_of_getElem? hactive hj, by omega⟩
  refine ⟨l.sortTarget part, .of_moves hdistinct ?_ ?_ ?_ ?_, fun i hi =>
    sortTarget_mem_part hactive hi⟩
  · intro i e he
    by_cases hpart : (l.range part).1 ≤ i ∧ i < (l.range part).2
    · obtain ⟨j, hj, htarget, hlt⟩ := hplace he hpart
      rw [hget, htarget, if_pos ⟨by omega, hlt⟩, Nat.add_sub_cancel_left, hj, Option.map_some]
    · rw [hget, sortTarget, if_neg hpart, if_neg hpart, he]
  · intro j e he
    rw [hget] at he
    split at he
    · next hpart =>
      obtain ⟨⟨e', i⟩, hj, rfl⟩ := Option.map_eq_some_iff.mp he
      refine ⟨i, ?_, ((mem_sorted_iff hactive).mp (List.mem_of_getElem? hj)).1⟩
      rw [sortTarget_of_getElem? hactive hj]
      omega
    · next hpart => exact ⟨j, by rw [sortTarget, if_neg hpart], he⟩
  · intro move hmem
    obtain ⟨e, i, j, hj, hpartner, hlink, hposition⟩ := exists_of_mem_moves_sort hmem
    refine ⟨i, e, ((mem_sorted_iff hactive).mp (List.mem_of_getElem? hj)).1, hpartner, hlink, ?_⟩
    rw [hposition, sortTarget_of_getElem? hactive hj]
  · intro i e k he hk hne
    by_cases hpart : (l.range part).1 ≤ i ∧ i < (l.range part).2
    · obtain ⟨j, hj, htarget, hlt⟩ := hplace he hpart
      rw [hmoves, List.mem_filterMap]
      refine ⟨((e, i), (l.range part).1 + j), ?_, ?_⟩
      · rw [List.mk_mem_zipIdx_iff_le_and_getElem?_sub, Nat.add_sub_cancel_left]
        exact ⟨by omega, hj⟩
      · dsimp only
        rw [if_neg (by rw [← htarget]; exact hne), hk, htarget, Option.map_some]
    · rw [sortTarget, if_neg hpart] at hne
      exact absurd rfl hne

end Incidence

end CertifiedLp
