import Mathlib
import CertifiedLp.Proofs.Incidence.Keys

/-!
# The keys of an incidence list

What the operations on a list do to its keys. Links do not show in them, and neither do values.
-/

namespace CertifiedLp

open Reference (index)

/-! ## Swapping -/

theorem map_swapIfInBounds {α β : Type} (f : α → β) (xs : Array α) (i j : Nat) :
    (xs.swapIfInBounds i j).map f = (xs.map f).swapIfInBounds i j := by
  by_cases h : i < xs.size ∧ j < xs.size
  · refine Array.ext_getElem? fun q => ?_
    rw [Array.getElem?_map, getElem?_swapIfInBounds h.1 h.2,
      getElem?_swapIfInBounds (by simpa using h.1) (by simpa using h.2), Array.getElem?_map]
  · rw [Array.swapIfInBounds_def, Array.swapIfInBounds_def]
    simp only [Array.size_map]
    grind

/-- An element changes places with the last one behind it. -/
theorem toList_swapIfInBounds {α : Type} {es : Array α} {xs ys zs : List α} {x : α}
    (h : es.toList = xs ++ x :: ys ++ zs) :
    (es.swapIfInBounds xs.length (xs.length + ys.length)).toList =
      xs ++ lastFirst ys ++ x :: zs := by
  have hsize : es.size = xs.length + ys.length + 1 + zs.length := by
    rw [← Array.length_toList, h]
    simp only [List.length_append, List.length_cons]
    omega
  have hlength : (xs ++ x :: ys ++ zs).length = es.size := by rw [← h, Array.length_toList]
  have hget {i : Nat} (hi : i < es.size) : es[i] = (xs ++ x :: ys ++ zs).get ⟨i, hlength ▸ hi⟩ := by
    simp only [← h, List.get_eq_getElem, Array.getElem_toList]
  rw [Array.swapIfInBounds_def, dif_pos (by omega), dif_pos (by omega), Array.toList_swap, hget,
    hget]
  rcases ys.eq_nil_or_concat' with rfl | ⟨ys, y, rfl⟩
  · simp [h]
  · simp [h]

theorem swapIfInBounds_comm {α : Type} (xs : Array α) (i j : Nat) :
    xs.swapIfInBounds i j = xs.swapIfInBounds j i := by
  by_cases h : i < xs.size ∧ j < xs.size
  · refine Array.ext_getElem? fun q => ?_
    rw [getElem?_swapIfInBounds h.1 h.2, getElem?_swapIfInBounds h.2 h.1, Equiv.swap_comm]
  · rw [Array.swapIfInBounds_def, Array.swapIfInBounds_def]
    grind

variable {κ : Type} [Reference κ]

/-- The numbers of the partners, in the order of the entries. -/
def numbers (es : Array (Entry κ)) : List Nat := es.toList.map fun e => index e.partner

namespace Incidence

variable {l l' : Incidence κ} {es : Array (Entry κ)} {part other : Part} {e : Entry κ}
variable {K : Keys} {position i j k : Nat} {pre : List Nat}

/-- The numbers of the partners in a part, in the order of the entries. -/
def keys (l : Incidence κ) : Keys := fun part => (l.inPart part).map fun e => index e.partner

/-- The list has the given keys, and its active part is all there. -/
structure Keyed (l : Incidence κ) (K : Keys) : Prop where
  numbers_eq : numbers l.entries = K .active ++ K .rest
  nrActive_eq : l.nrActive = (K .active).length

theorem keys_active (l : Incidence κ) : l.keys .active = (numbers l.entries).take l.nrActive :=
  List.map_take

theorem keys_rest (l : Incidence κ) : l.keys .rest = (numbers l.entries).drop l.nrActive :=
  List.map_drop

theorem keyed (hactive : l.nrActive ≤ l.size) : l.Keyed l.keys where
  numbers_eq := by rw [keys_active, keys_rest, List.take_append_drop]
  nrActive_eq := by
    rw [keys_active, List.length_take, numbers, List.length_map, Array.length_toList]
    exact (Nat.min_eq_left hactive).symm

theorem Keyed.keys_eq (h : l.Keyed K) : l.keys = K := by
  funext part
  cases part
  · rw [keys_active, h.numbers_eq, h.nrActive_eq, List.take_left]
  · rw [keys_rest, h.numbers_eq, h.nrActive_eq, List.drop_left]

theorem Keyed.size_eq (h : l.Keyed K) : l.size = (K .active).length + (K .rest).length := by
  rw [← List.length_append, ← h.numbers_eq, numbers, List.length_map, Array.length_toList, size]

theorem Keyed.nrActive_le (h : l.Keyed K) : l.nrActive ≤ l.size := by
  rw [h.nrActive_eq, h.size_eq]
  exact Nat.le_add_right _ _

theorem Keyed.congr (h : l.Keyed K) (hnumbers : numbers l'.entries = numbers l.entries)
    (hactive : l'.nrActive = l.nrActive) : l'.Keyed K :=
  ⟨hnumbers.trans h.numbers_eq, hactive.trans h.nrActive_eq⟩

/-! ## Changes -/

theorem numbers_modify (es : Array (Entry κ)) (position : Nat) {f : Entry κ → Entry κ}
    (hf : ∀ e, (f e).partner = e.partner) : numbers (es.modify position f) = numbers es := by
  refine List.ext_getElem? fun i => ?_
  have hpartner := congrArg (Option.map index) (map_partner_modify f hf es position i)
  simpa [-Array.toList_modify, numbers, Function.comp_def] using hpartner

theorem numbers_setLink (l : Incidence κ) (position : Nat) (link : Option Nat) :
    numbers (l.setLink position link).entries = numbers l.entries := by
  rw [entries_setLink]
  exact numbers_modify l.entries position fun _ => rfl

theorem Keyed.setLink (h : l.Keyed K) (position : Nat) (link : Option Nat) :
    (l.setLink position link).Keyed K :=
  h.congr (numbers_setLink ..) (nrActive_setLink ..)

theorem Keyed.relink (h : l.Keyed K) (position link : Nat) : (l.relink position link).Keyed K :=
  h.congr (numbers_modify l.entries position fun _ => rfl) rfl

theorem Keyed.push (h : l.Keyed K) (e : Entry κ) :
    (l.push e).Keyed (K.append (index e.partner)) where
  numbers_eq := by
    rw [entries_push, numbers, Array.toList_push, List.map_append, ← numbers, h.numbers_eq,
      List.append_assoc]
    rfl
  nrActive_eq := by
    rw [nrActive_push]
    exact h.nrActive_eq

/-- An entry changes places with the last one behind it. -/
theorem numbers_swapIfInBounds (pre post rest : List Nat)
    (h : numbers es = pre ++ k :: post ++ rest) (hi : i = pre.length)
    (hj : j = pre.length + post.length) :
    numbers (es.swapIfInBounds i j) = pre ++ lastFirst post ++ k :: rest := by
  rw [numbers, ← Array.toList_map] at h ⊢
  rw [map_swapIfInBounds, hi, hj, toList_swapIfInBounds h]

/-- The entry that was stored last moves to the end of the active part. -/
theorem Keyed.activate (h : l.Keyed (K.append k)) (hlast : position + 1 = l.size) :
    (l.activate position).1.Keyed (K.enter k) where
  numbers_eq := by
    have hnumbers : numbers l.entries = K .active ++ (K .rest ++ [k]) := h.numbers_eq
    have hactive : l.nrActive = (K .active).length := h.nrActive_eq
    have hposition : position = (K .active).length + (K .rest).length := by
      have hsize : l.size = (K .active).length + (K .rest ++ [k]).length := h.size_eq
      rw [List.length_append, List.length_singleton] at hsize
      omega
    rw [entries_activate, swapIfInBounds_comm]
    cases hrest : K .rest with
    | nil =>
      rw [hrest] at hnumbers hposition
      rw [numbers_swapIfInBounds (K .active) [] [] (by simpa using hnumbers) hactive
        hposition]
      simp [Keys.enter, hrest, firstLast]
    | cons x xs =>
      rw [hrest] at hnumbers hposition
      rw [numbers_swapIfInBounds (K .active) (xs ++ [k]) [] (by simpa using hnumbers)
        hactive (by simpa using hposition)]
      simp [Keys.enter, hrest, firstLast]
  nrActive_eq := by
    rw [nrActive_activate, h.nrActive_eq]
    simp [Keys.enter, Keys.append]

theorem entries_remove (hposition : position < l.size) : (l.remove position).1.entries =
    if position < l.nrActive then
      (((l.setLink position none).entries.swapIfInBounds position (l.nrActive - 1)).swapIfInBounds
        (l.nrActive - 1) (l.size - 1)).pop
    else ((l.setLink position none).entries.swapIfInBounds position (l.size - 1)).pop := by
  rw [remove, size_setLink, if_neg (by omega), nrActive_setLink]
  split <;> simp

theorem numbers_pop (h : numbers es = pre ++ [k]) : numbers es.pop = pre := by
  rw [numbers, Array.toList_pop, List.map_dropLast, ← numbers, h, List.dropLast_concat]

/-- An entry of the active part is removed. The last entry of that part takes its place, and is
itself replaced by the last entry of the list. -/
theorem Keyed.remove_active (h : l.Keyed K) (hnodup : (K .active).Nodup)
    (hkey : (K .active)[position]? = some k) : (l.remove position).1.Keyed (K.drop k) := by
  have hlength := h.nrActive_eq
  have hsize := h.size_eq
  have hcut := (numbers_setLink l position none).trans h.numbers_eq
  obtain ⟨pre, post, hsplit, rfl⟩ := eq_append_of_getElem? hkey
  have hnew : k ∉ pre := fun h => by
    rw [hsplit] at hnodup
    exact List.disjoint_of_nodup_append hnodup h (by simp)
  rw [hsplit, List.length_append, List.length_cons] at hlength hsize
  have hactive : K.drop k .active = pre ++ lastFirst post := by
    rw [Keys.drop, hsplit, plug_append hnew]
  have hrest : K.drop k .rest = lastFirst (K .rest) := by
    rw [Keys.drop, if_pos (by rw [hsplit]; simp)]
  constructor
  · rw [entries_remove (by omega), if_pos (by omega), hactive, hrest]
    refine numbers_pop (k := k) ?_
    rw [hsplit] at hcut
    have hfirst := numbers_swapIfInBounds (j := l.nrActive - 1) pre post (K .rest) hcut rfl
      (by omega)
    rw [numbers_swapIfInBounds (pre ++ lastFirst post) (K .rest) []
      (by rw [hfirst, List.append_nil]) (by simp; omega) (by simp; omega)]
  · rw [nrActive_remove (by omega), if_pos (by omega), hactive]
    simp
    omega

/-- An entry of the rest is removed. The last entry of the list takes its place. -/
theorem Keyed.remove_rest (h : l.Keyed K) (hnodup : (K .rest).Nodup) (hnew : k ∉ K .active)
    (hactive : l.nrActive ≤ position) (hkey : (K .rest)[position - l.nrActive]? = some k) :
    (l.remove position).1.Keyed (K.drop k) := by
  have hlength := h.nrActive_eq
  have hsize := h.size_eq
  have hcut := (numbers_setLink l position none).trans h.numbers_eq
  obtain ⟨pre, post, hsplit, hpre⟩ := eq_append_of_getElem? hkey
  have hnew' : k ∉ pre := fun h => by
    rw [hsplit] at hnodup
    exact List.disjoint_of_nodup_append hnodup h (by simp)
  rw [hsplit, List.length_append, List.length_cons] at hsize
  have hrest : K.drop k .rest = pre ++ lastFirst post := by
    rw [Keys.drop, if_neg hnew, hsplit, plug_append hnew']
  have hsame : K.drop k .active = K .active := plug_of_notMem hnew
  constructor
  · rw [entries_remove (by omega), if_neg (by omega), hsame, hrest]
    refine numbers_pop (k := k) ?_
    rw [hsplit] at hcut
    have hfilled := numbers_swapIfInBounds (k := k) (i := position) (j := l.size - 1)
      (K .active ++ pre) post [] (by rw [hcut]; simp) (by simp; omega) (by simp; omega)
    rw [hfilled, List.append_assoc (K .active)]
  · rw [nrActive_remove (by omega), if_neg (by omega), hsame, hlength]

/-- The entry that is removed is the only one for its partner. -/
theorem Keyed.remove (h : l.Keyed K) (hnodup : (K .active ++ K .rest).Nodup)
    (hkey : (K .active ++ K .rest)[position]? = some k) :
    (l.remove position).1.Keyed (K.drop k) := by
  have hlength := h.nrActive_eq
  by_cases hpart : position < l.nrActive
  · rw [List.getElem?_append_left (by omega)] at hkey
    exact h.remove_active (Keys.nodup_part hnodup .active) hkey
  · rw [List.getElem?_append_right (by omega), ← hlength] at hkey
    refine h.remove_rest (Keys.nodup_part hnodup .rest) (fun hmem => ?_) (Nat.not_lt.mp hpart) hkey
    exact List.disjoint_of_nodup_append hnodup hmem (List.mem_of_getElem? hkey)

omit [Reference κ] in
theorem getElem?_inPart (l : Incidence κ) (part : Part) (i : Nat) : (l.inPart part)[i]? =
    if (l.range part).1 + i < (l.range part).2 then l.entries[(l.range part).1 + i]? else none := by
  cases part with
  | active =>
    rw [inPart, List.getElem?_take, Array.getElem?_toList]
    simp [range]
  | rest =>
    rw [inPart, List.getElem?_drop, Array.getElem?_toList]
    split
    · rfl
    · next h => exact Array.getElem?_eq_none (Nat.not_lt.mp h)

/-! ## Sorting -/

theorem size_sort (hactive : l.nrActive ≤ l.size) (part : Part) :
    (l.sort part).1.size = l.size := by
  simpa [size] using (perm_sort hactive part).length_eq

theorem keys_sort_of_ne (hactive : l.nrActive ≤ l.size) (h : other ≠ part) :
    (l.sort part).1.keys other = l.keys other := by
  cases hsorted : l.isSorted part with
  | true => rw [sort, if_pos hsorted]
  | false =>
    have hrange : (l.sort part).1.range other = l.range other := by
      cases other <;> simp [range, nrActive_sort, size_sort hactive]
    rw [keys, keys]
    congr 1
    refine List.ext_getElem? fun i => ?_
    rw [getElem?_inPart, getElem?_inPart, hrange]
    split
    · rw [getElem?_sort hactive hsorted, if_neg ?_]
      cases part <;> cases other <;> simp_all [range]
    · rfl

theorem length_keys (hactive : l.nrActive ≤ l.size) (part : Part) :
    (l.keys part).length = (l.range part).2 - (l.range part).1 := by
  cases part with
  | active => exact (keyed hactive).nrActive_eq.symm
  | rest => simp [keys_rest, numbers, range, size]

/-- A part is sorted if its keys are in ascending order. -/
theorem isSorted_iff (hcounted : l.Counted) (hactive : l.nrActive ≤ l.size) :
    l.isSorted part = true ↔ (l.keys part).Pairwise (· ≤ ·) := by
  have hlength := length_keys hactive part
  have hkey {i : Nat} (hi : i < (l.keys part).length) :
      (l.keys part)[i] = l.keyAt ((l.range part).1 + i) := by
    have hget := List.getElem?_eq_getElem hi
    simp only [keys, List.getElem?_map, getElem?_inPart] at hget
    rw [if_pos (by omega)] at hget
    rw [keyAt, entry?, hget]
    rfl
  rw [List.pairwise_iff_getElem]
  constructor
  · intro hsorted i j hi hj hij
    rw [hkey, hkey]
    exact keyAt_le_of_isSorted hcounted hactive hsorted (by omega) (by omega) (by omega)
  · intro hpairwise
    rw [isSorted, beq_iff_eq, hcounted.descents part, countDescents_eq (Nat.le_refl _),
      List.countP_eq_zero]
    intro q _ hdescent
    obtain ⟨first, second, hfirst, hsecond, hpart, hnext, hlt⟩ := descentIn_iff.mp hdescent
    have hsize := lt_size_of_descentIn hdescent
    have hrange : (l.range part).1 ≤ q ∧ q + 1 < (l.range part).2 := by
      rw [partOf] at hpart hnext
      cases part <;> simp_all [range]
    have hle := hpairwise (q - (l.range part).1) (q + 1 - (l.range part).1) (by omega) (by omega)
      (by omega)
    rw [hkey, hkey, show (l.range part).1 + (q - (l.range part).1) = q by omega,
      show (l.range part).1 + (q + 1 - (l.range part).1) = q + 1 by omega,
      keyAt_of_getElem? hfirst, keyAt_of_getElem? hsecond] at hle
    omega

/-- Sorting a part of a list sorts its keys. -/
theorem sifted_sort (hcounted : l.Counted) (hactive : l.nrActive ≤ l.size) (part : Part) :
    Keys.Sifted [part] l.keys (l.sort part).1.keys := by
  have hactive' : (l.sort part).1.nrActive ≤ (l.sort part).1.size := by
    rw [nrActive_sort, size_sort hactive]
    exact hactive
  have hsame (other : Part) (hother : other ≠ part) : (l.sort part).1.keys other = l.keys other :=
    keys_sort_of_ne hactive hother
  have hperm : (numbers (l.sort part).1.entries).Perm (numbers l.entries) :=
    (perm_sort hactive part).map _
  rw [(keyed hactive').numbers_eq, (keyed hactive).numbers_eq] at hperm
  refine ⟨fun other => ?_, fun other hother => ?_,
    fun other hother => hsame other (by simpa using hother)⟩
  · by_cases hother : other = part
    · subst hother
      cases other with
      | active =>
        rw [hsame .rest (by simp)] at hperm
        exact (List.perm_append_right_iff _).mp hperm
      | rest =>
        rw [hsame .active (by simp)] at hperm
        exact (List.perm_append_left_iff _).mp hperm
    · rw [hsame other hother]
  · obtain rfl := List.mem_singleton.mp hother
    exact (isSorted_iff (counted_sort hcounted hactive other) hactive').mp (isSorted_sort l other)

theorem Keyed.sort (h : l.Keyed K) (hcounted : l.Counted) (part : Part) :
    ∃ K', Keys.Sifted [part] K K' ∧ (l.sort part).1.Keyed K' := by
  have hactive := h.nrActive_le
  have hsifted := sifted_sort hcounted hactive part
  rw [h.keys_eq] at hsifted
  exact ⟨_, hsifted, keyed (by rw [nrActive_sort, size_sort hactive]; exact hactive)⟩

/-! ## Looking up -/

/-- What is found in a part has its key there. -/
theorem Keyed.mem_of_find? (h : l.Keyed K) {partner : κ}
    (hfound : l.find? part partner = some position) : index partner ∈ K part := by
  have hactive := h.nrActive_le
  obtain ⟨hlow, hhigh, e, he, rfl⟩ := getElem?_of_find? hactive hfound
  rw [← h.keys_eq]
  refine List.mem_map_of_mem (List.mem_of_getElem? (i := position - (l.range part).1) ?_)
  rw [getElem?_inPart, if_pos (by omega), Nat.add_sub_cancel' hlow, he]

theorem Keyed.getElem? (h : l.Keyed K) (he : l.entries[position]? = some e) :
    (K .active ++ K .rest)[position]? = some (index e.partner) := by
  rw [← h.numbers_eq, numbers, List.getElem?_map, Array.getElem?_toList, he, Option.map_some]

/-- A partner whose number is among the keys has an entry. -/
theorem Keyed.exists_entry (h : l.Keyed K) {partner : κ} (hmem : index partner ∈ K part) :
    ∃ e ∈ l.entries, e.partner = partner := by
  have hnumbers : index partner ∈ numbers l.entries := by
    rw [h.numbers_eq, List.mem_append]
    cases part
    · exact .inl hmem
    · exact .inr hmem
  obtain ⟨e, he, hindex⟩ := List.mem_map.mp hnumbers
  exact ⟨e, by simpa using he, Reference.index_injective hindex⟩

/-! ## A round trip -/

/-- The entries of a list are the same as before, in the same parts. A part where an entry left a
hole is sorted if at most one partner in it comes behind the number of that entry; every other part
is sorted if it was so before or was searched. -/
structure RoundTrip (l l' : Incidence κ) (searched : List Part) (hole : Option Part) (k : Nat) :
    Prop where
  reordered : l.Reordered l'
  sorted : ∀ part, l'.isSorted part = true ↔
    if hole = some part then (l.inPart part).countP (fun e => decide (k < index e.partner)) ≤ 1
    else l.isSorted part = true ∨ part ∈ searched

theorem Reordered.roundTrip {searched : List Part} {hole : Option Part} (h : l.Reordered l')
    (hrestored : Keys.Restored searched hole k l.keys l'.keys) (hcounted : l.Counted)
    (hcounted' : l'.Counted) (hactive : l.nrActive ≤ l.size) : RoundTrip l l' searched hole k where
  reordered := h
  sorted part := by
    rw [isSorted_iff hcounted' (by rw [h.nrActive, h.size]; exact hactive), hrestored part,
      isSorted_iff hcounted hactive, keys, List.countP_map]
    rfl

end Incidence

end CertifiedLp
