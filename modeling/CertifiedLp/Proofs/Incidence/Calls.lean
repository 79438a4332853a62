import Mathlib
import CertifiedLp.Proofs.Incidence.Keyed
import CertifiedLp.Proofs.Incidence.Merging

/-!
# Sequences of calls

All that can change an incidence list, as a family, and what it takes for a call to be allowed.
Every allowed call keeps the counts right and the active part within the list, so they are so after
every sequence of allowed calls on the empty list. What the counts are used for follows from it: a
part is taken for sorted exactly when it is in ascending order, and a search of such a part finds
what is there.
-/

namespace CertifiedLp

open Reference (index)

/-! ## Neighbours out of order -/

/-- How many neighbours in a list are out of order. -/
def outOfOrder (xs : List Nat) : Nat := (xs.zip xs.tail).countP fun pair => pair.2 < pair.1

/-- The neighbours are those of the positions of the list. -/
theorem outOfOrder_eq_countP (xs : List Nat) : outOfOrder xs =
    (List.range xs.length).countP fun i => xs[i]?.any fun x => xs[i + 1]?.any (· < x) := by
  induction xs with
  | nil => rfl
  | cons x xs ih =>
    rw [List.length_cons, List.range_succ_eq_map, List.countP_cons, List.countP_map]
    cases xs with
    | nil => rfl
    | cons y ys =>
      rw [outOfOrder, List.tail_cons, List.zip_cons_cons, List.countP_cons]
      congr 1

/-- What is only in a window of a range can be counted in the window. -/
theorem countP_range_window {p : Nat → Bool} (start length : Nat) {size : Nat}
    (hsize : start + length ≤ size) (h : ∀ q, p q = true → start ≤ q ∧ q < start + length) :
    (List.range size).countP p = (List.range length).countP fun i => p (start + i) := by
  obtain ⟨rest, rfl⟩ := Nat.exists_eq_add_of_le hsize
  have hbefore : (List.range start).countP p = 0 := by
    rw [List.countP_eq_zero]
    intro q hq hp
    exact absurd (h q hp).1 (Nat.not_le.2 (List.mem_range.1 hq))
  have hbehind : ((List.range rest).map (start + length + ·)).countP p = 0 := by
    rw [List.countP_eq_zero]
    intro q hq hp
    obtain ⟨i, -, rfl⟩ := List.mem_map.1 hq
    have := (h _ hp).2
    omega
  rw [List.range_add, List.countP_append, List.range_add, List.countP_append, hbefore, hbehind,
    List.countP_map, zero_add, add_zero]
  rfl

namespace Incidence

variable {κ : Type} [Reference κ] {l : Incidence κ} {part : Part} {position i x : Nat}

omit [Reference κ] in
theorem partOf_eq_iff (hsize : position < l.size) :
    l.partOf position = part ↔ (l.range part).1 ≤ position ∧ position < (l.range part).2 := by
  rw [partOf]
  cases part <;> simp only [range] <;> split <;> simp <;> omega

theorem getElem?_keys_eq_some_iff : (l.keys part)[i]? = some x ↔
    (l.range part).1 + i < (l.range part).2 ∧
      ∃ e, l.entries[(l.range part).1 + i]? = some e ∧ index e.partner = x := by
  rw [keys, List.getElem?_map, getElem?_inPart]
  split <;> simp [*]

/-- Counting the descents anew is counting the keys of a part that are out of order. -/
theorem countDescents_eq_outOfOrder (hactive : l.nrActive ≤ l.size) (part : Part) :
    l.countDescents part = outOfOrder (l.keys part) := by
  have hrange := range_fst_le hactive part
  have hsize := range_snd_le hactive part
  rw [countDescents_eq (Nat.le_refl _), outOfOrder_eq_countP, length_keys hactive part,
    countP_range_window (l.range part).1 ((l.range part).2 - (l.range part).1) (by omega)]
  · apply List.countP_congr
    intro i hi
    rw [List.mem_range] at hi
    simp only [descentIn_iff, Option.any_eq_true, decide_eq_true_eq, getElem?_keys_eq_some_iff]
    constructor
    · rintro ⟨first, second, hfirst, hsecond, -, hnext, hlt⟩
      have hend := (partOf_eq_iff (Array.getElem?_eq_some_iff.1 hsecond).1).1 hnext
      exact ⟨_, ⟨by omega, first, hfirst, rfl⟩, _, ⟨hend.2, second, hsecond, rfl⟩, hlt⟩
    · rintro ⟨-, ⟨-, first, hfirst, rfl⟩, -, ⟨hend, second, hsecond, rfl⟩, hlt⟩
      refine ⟨first, second, hfirst, hsecond, ?_, ?_, hlt⟩
      · exact (partOf_eq_iff (by omega)).2 ⟨by omega, by omega⟩
      · exact (partOf_eq_iff (by omega)).2 ⟨by omega, hend⟩
  · intro q hq
    obtain ⟨_, _, hfirst, -, hpart, -, -⟩ := descentIn_iff.1 hq
    have hq := (partOf_eq_iff (Array.getElem?_eq_some_iff.1 hfirst).1).1 hpart
    omega

/-! ## Finding -/

/-- In a sorted part where no partner occurs twice, a search returns the position of a partner if
and only if it is there. -/
theorem find?_eq_some_iff (hcounted : l.Counted) (hactive : l.nrActive ≤ l.size)
    (hsorted : l.isSorted part = true) (hnodup : (l.keys part).Nodup) {partner : κ} :
    l.find? part partner = some position ↔
      (l.range part).1 ≤ position ∧ position < (l.range part).2 ∧
        ∃ e, l.entries[position]? = some e ∧ e.partner = partner := by
  constructor
  · exact getElem?_of_find? hactive
  · rintro ⟨hlow, hhigh, e, he, rfl⟩
    cases hfound : l.find? part e.partner with
    | none => exact absurd rfl (ne_of_find?_eq_none hcounted hactive hsorted hfound he hlow hhigh)
    | some found =>
      obtain ⟨hlow', hhigh', e', he', hpartner⟩ := getElem?_of_find? hactive hfound
      have hkey : (l.keys part)[position - (l.range part).1]? = some (index e.partner) := by
        rw [getElem?_keys_eq_some_iff, Nat.add_sub_cancel' hlow]
        exact ⟨hhigh, e, he, rfl⟩
      have hkey' : (l.keys part)[found - (l.range part).1]? = some (index e.partner) := by
        rw [getElem?_keys_eq_some_iff, Nat.add_sub_cancel' hlow']
        exact ⟨hhigh', e', he', by rw [hpartner]⟩
      have hsame := (List.getElem?_inj (List.getElem?_eq_some_iff.1 hkey).1 hnodup).1
        (hkey.trans hkey'.symm)
      rw [show found = position by omega]

/-! ## Calls -/

/-- What can be done to an incidence list. -/
inductive Call (κ : Type) where
  | push (entry : Entry κ)
  | swap (first second : Nat)
  | setNrActive (n : Nat)
  | remove (position : Nat)
  | setValue (position : Nat) (value : Extended)
  | setLink (position : Nat) (link : Option Nat)
  | relink (position link : Nat)
  | sort (part : Part)
  | merge

variable {call : Call κ} {calls : List (Call κ)}

/-- The list after a call. -/
def perform (l : Incidence κ) : Call κ → Incidence κ
  | .push entry => l.push entry
  | .swap first second => (l.swap first second).1
  | .setNrActive n => l.setNrActive n
  | .remove position => (l.remove position).1
  | .setValue position value => l.setValue position value
  | .setLink position link => l.setLink position link
  | .relink position link => l.relink position link
  | .sort part => (l.sort part).1
  | .merge => l.merge

/-- All positions are within the list, and what the operation asserts is true. -/
def Allows (l : Incidence κ) : Call κ → Prop
  | .push entry => entry.value ≠ 0
  | .swap first second => first = second ∨ first < l.size ∧ second < l.size
  | .setNrActive n => n ≤ l.size
  | .remove position => position < l.size
  | .setValue position value => position < l.size ∧ value ≠ 0
  | .setLink position _ => position < l.size
  | .relink position _ => (l.link? position).isSome = true
  | .sort _ => True
  | .merge => l.nrUnlinked = l.size ∧ l.nrActive = 0

instance decidableAllows (l : Incidence κ) : (call : Call κ) → Decidable (l.Allows call)
  | .push entry => inferInstanceAs (Decidable (entry.value ≠ 0))
  | .swap first second =>
    inferInstanceAs (Decidable (first = second ∨ first < l.size ∧ second < l.size))
  | .setNrActive n => inferInstanceAs (Decidable (n ≤ l.size))
  | .remove position => inferInstanceAs (Decidable (position < l.size))
  | .setValue position value => inferInstanceAs (Decidable (position < l.size ∧ value ≠ 0))
  | .setLink position _ => inferInstanceAs (Decidable (position < l.size))
  | .relink position _ => inferInstanceAs (Decidable ((l.link? position).isSome = true))
  | .sort _ => inferInstanceAs (Decidable True)
  | .merge => inferInstanceAs (Decidable (l.nrUnlinked = l.size ∧ l.nrActive = 0))

/-- The list after all calls of a sequence. -/
def performAll (l : Incidence κ) : List (Call κ) → Incidence κ
  | [] => l
  | call :: calls => (l.perform call).performAll calls

/-- Every call of a sequence is allowed when it is made. -/
def AllowsAll (l : Incidence κ) : List (Call κ) → Prop
  | [] => True
  | call :: calls => l.Allows call ∧ (l.perform call).AllowsAll calls

instance decidableAllowsAll (l : Incidence κ) : (calls : List (Call κ)) →
    Decidable (l.AllowsAll calls)
  | [] => inferInstanceAs (Decidable True)
  | call :: calls =>
    have := decidableAllowsAll (l.perform call) calls
    inferInstanceAs (Decidable (l.Allows call ∧ (l.perform call).AllowsAll calls))

/-- The counts of a list are right, and its active part is part of it. -/
structure Kept (l : Incidence κ) : Prop where
  counted : l.Counted
  nrActive_le : l.nrActive ≤ l.size

theorem kept_empty : (empty : Incidence κ).Kept := ⟨counted_empty, Nat.le_refl 0⟩

theorem Kept.perform (h : l.Kept) (hallowed : l.Allows call) : (l.perform call).Kept := by
  obtain ⟨hcounted, hactive⟩ := h
  have exists_entry {position : Nat} (hposition : position < l.size) :
      ∃ e, l.entries[position]? = some e := ⟨_, Array.getElem?_eq_getElem hposition⟩
  cases call with
  | push entry =>
    refine ⟨counted_push hcounted entry, ?_⟩
    rw [Incidence.perform, nrActive_push, size_push]
    omega
  | swap first second =>
    constructor
    · obtain rfl | ⟨hfirst, hsecond⟩ := hallowed
      · rwa [Incidence.perform, swap, if_pos rfl]
      · exact counted_swap hcounted hfirst hsecond
    · rwa [Incidence.perform, nrActive_swap, size_swap]
  | setNrActive n =>
    refine ⟨counted_setNrActive hcounted n, ?_⟩
    rwa [Incidence.perform, nrActive_setNrActive, size_setNrActive]
  | remove position =>
    obtain ⟨e, he⟩ := exists_entry hallowed
    refine ⟨counted_remove hcounted hactive he, ?_⟩
    rw [Incidence.perform, nrActive_remove hallowed, size_remove hallowed]
    have hposition : position < l.size := hallowed
    split <;> omega
  | setValue position value =>
    refine ⟨counted_setValue hcounted position value, ?_⟩
    rwa [Incidence.perform, size_setValue]
  | setLink position link =>
    obtain ⟨e, he⟩ := exists_entry hallowed
    refine ⟨counted_setLink hcounted he link, ?_⟩
    rwa [Incidence.perform, nrActive_setLink, size, entries_setLink, Array.size_modify]
  | relink position link =>
    obtain ⟨old, hold⟩ := Option.isSome_iff_exists.1 hallowed
    obtain ⟨e, he, hlink⟩ := Option.bind_eq_some_iff.1 hold
    refine ⟨counted_relink hcounted he (by rw [hlink]; rfl) link, ?_⟩
    rwa [Incidence.perform, relink, size, Array.size_modify]
  | sort part =>
    refine ⟨counted_sort hcounted hactive part, ?_⟩
    rwa [Incidence.perform, nrActive_sort, size_sort hactive]
  | merge =>
    refine ⟨counted_merge l, ?_⟩
    have hnone : (l.perform .merge).nrActive = 0 := hallowed.2
    rw [hnone]
    exact Nat.zero_le _

theorem Kept.performAll (h : l.Kept) (hallowed : l.AllowsAll calls) :
    (l.performAll calls).Kept := by
  induction calls generalizing l with
  | nil => exact h
  | cons call calls ih => exact ih (h.perform hallowed.1) hallowed.2

/-- After every sequence of allowed calls, the cached counts are the numbers of what they stand for.
So a part is taken for sorted exactly when it is in ascending order, and a search of a sorted part in
which no partner occurs twice returns the position of a partner if and only if it is there. -/
theorem order_tracked (hallowed : (empty : Incidence κ).AllowsAll calls)
    (hl : empty.performAll calls = l) :
    l.nrUnlinked = l.entries.toList.countP (·.link.isNone) ∧
    ∀ part, l.descents part = outOfOrder (l.keys part) ∧
      (l.isSorted part = true ↔ (l.keys part).Pairwise (· ≤ ·)) ∧
      (l.isSorted part = true → (l.keys part).Nodup → ∀ partner position,
        (l.find? part partner = some position ↔
          (l.range part).1 ≤ position ∧ position < (l.range part).2 ∧
            ∃ e, l.entries[position]? = some e ∧ e.partner = partner)) := by
  obtain ⟨hcounted, hactive⟩ := kept_empty.performAll hallowed
  rw [hl] at hcounted hactive
  refine ⟨hcounted.unlinked, fun part => ⟨?_, isSorted_iff hcounted hactive, ?_⟩⟩
  · rw [hcounted.descents part, countDescents_eq_outOfOrder hactive]
  · intro hsorted hnodup partner position
    exact find?_eq_some_iff hcounted hactive hsorted hnodup

/-- Three entries are stored, two of them become active in descending order, and the first one is
removed. The part that it leaves is sorted, and the other one is found there. -/
theorem order_tracked_after_removal :
    let calls : List (Call Nat) := [.push ⟨5, 1, some 0⟩, .push ⟨3, 1, some 0⟩, .push ⟨1, 1, none⟩,
      .setNrActive 2, .remove 0]
    let l := empty.performAll calls
    (empty : Incidence Nat).AllowsAll calls ∧ l.nrUnlinked = 1 ∧ l.isSorted .active = true ∧
      (l.keys .active).Nodup ∧ (l.keys .active).Pairwise (· ≤ ·) ∧
      l.find? .active 3 = some 0 := by
  intro calls l
  have hallowed : (empty : Incidence Nat).AllowsAll calls := by decide +kernel
  have hsorted : l.isSorted .active = true := by decide +kernel
  have hnodup : (l.keys .active).Nodup := by decide +kernel
  obtain ⟨hunlinked, hparts⟩ := order_tracked hallowed (rfl : empty.performAll calls = l)
  obtain ⟨-, hascending, hfind⟩ := hparts .active
  refine ⟨hallowed, hunlinked.trans (by decide +kernel), hsorted, hnodup, hascending.1 hsorted, ?_⟩
  exact (hfind hsorted hnodup 3 0).2 ⟨by decide +kernel, by decide +kernel, ⟨3, 1, some 0⟩,
    by decide +kernel, rfl⟩

end Incidence

end CertifiedLp
