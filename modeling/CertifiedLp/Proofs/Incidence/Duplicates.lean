import Mathlib
import CertifiedLp.Proofs.Extended.Laws
import CertifiedLp.Proofs.Incidence.Merging

/-!
# Duplicates in a merged list

Merging leaves one entry for each partner whose values do not add up to zero, whatever the order of
the list and however often a partner occurs. The argument compares totals: merging keeps the total
of each partner, and in strictly ascending order a total is the value of a single entry.
-/

namespace CertifiedLp

open Reference (index)

namespace Incidence

variable {κ : Type} [Reference κ] {l : Incidence κ} {e : Entry κ} {k : κ}

/-! ## Totals -/

/-- The sum of all values that a list has for a partner. -/
def total (l : Incidence κ) (k : κ) : Extended :=
  Extended.sum ((l.entries.toList.filter fun e => index e.partner = index k).map (·.value))

theorem total_eq (hfinite : ∀ e ∈ l.entries, e.value.isFinite = true) (k : κ) :
    l.total k = .finite (weight (l.entries.toList.map fun e => (e.partner, e.value)) k) := by
  have hvalues : ∀ x ∈ (l.entries.toList.filter fun e => index e.partner = index k).map (·.value),
      x.isFinite = true := by
    intro x hx
    obtain ⟨e, he, rfl⟩ := List.mem_map.mp hx
    exact hfinite e (Array.mem_toList_iff.mp (List.mem_of_mem_filter he))
  have hsplit := List.sum_map_ite (fun e : Entry κ => index e.partner = index k)
    (fun e => e.value.rational) (fun _ => 0) l.entries.toList
  rw [List.map_const', List.sum_replicate, smul_zero, add_zero] at hsplit
  rw [total, Extended.sum_eq_finite hvalues, weight, List.map_map, List.map_map]
  exact congrArg Extended.finite hsplit.symm

/-- Merging keeps the total of each partner. -/
theorem total_merge (hfinite : ∀ e ∈ l.entries, e.value.isFinite = true) (k : κ) :
    l.merge.total k = l.total k := by
  rw [total_eq hfinite, total_eq fun e he => isFinite_merge hfinite he, weight_merge hfinite]

/-- In strictly ascending order, a partner has one entry. -/
theorem filter_partner_of_mem {es : List (Entry κ)}
    (hsorted : es.Pairwise fun e e' => index e.partner < index e'.partner) (he : e ∈ es) :
    es.filter (fun e' => index e'.partner = index e.partner) = [e] := by
  obtain ⟨before, behind, rfl⟩ := List.append_of_mem he
  obtain ⟨-, hbehind, hbefore⟩ := List.pairwise_append.mp hsorted
  have hnone (es : List (Entry κ)) (h : ∀ e' ∈ es, index e'.partner ≠ index e.partner) :
      es.filter (fun e' => index e'.partner = index e.partner) = [] := by
    rw [List.filter_eq_nil_iff]
    intro e' he' hindex
    exact h e' he' (of_decide_eq_true hindex)
  rw [List.filter_append, List.filter_cons_of_pos (by simp), hnone before, hnone behind]
  · rfl
  · intro e' he'
    exact ((List.pairwise_cons.mp hbehind).1 e' he').ne'
  · intro e' he'
    exact (hbefore e' he' e List.mem_cons_self).ne

theorem total_merge_of_mem (he : e ∈ l.merge.entries) : l.merge.total e.partner = e.value := by
  rw [total, filter_partner_of_mem l.pairwise_merge (Array.mem_toList_iff.mpr he),
    List.map_singleton, Extended.sum_singleton]

theorem total_of_forall_ne (h : ∀ e ∈ l.entries, e.partner ≠ k) : l.total k = 0 := by
  have hnone : l.entries.toList.filter (fun e => index e.partner = index k) = [] := by
    rw [List.filter_eq_nil_iff]
    intro e he hindex
    exact h e (Array.mem_toList_iff.mp he) (Reference.index_injective (of_decide_eq_true hindex))
  rw [total, hnone, List.map_nil, Extended.sum_nil]

/-! ## Merging again -/

/-- In strictly ascending order there is nothing to add up. -/
theorem sumRuns_of_pairwise {xs : List (κ × Extended)}
    (h : xs.Pairwise fun x y => index x.1 < index y.1) : sumRuns xs = xs := by
  fun_induction sumRuns xs with
  | case1 => rfl
  | case2 x => rfl
  | case3 x y rest hindex ih =>
    have hlt := (List.pairwise_cons.mp h).1 y List.mem_cons_self
    exact absurd hindex hlt.ne
  | case4 x y rest hindex ih => rw [ih (List.pairwise_cons.mp h).2]

/-- Merging changes nothing about a list in the form that merging leads to. -/
theorem merge_eq_self
    (hsorted : l.entries.toList.Pairwise fun e e' => index e.partner < index e'.partner)
    (hvalues : ∀ e ∈ l.entries, e.value ≠ 0) (hlinks : ∀ e ∈ l.entries, e.link = none)
    (hunlinked : l.nrUnlinked = l.size) (hdescents : ∀ part, l.descents part = 0) :
    l.merge = l := by
  have hsums : l.sums = l.entries.toList.map fun e => (e.partner, e.value) := by
    rw [sums, List.mergeSort_of_pairwise, sumRuns_of_pairwise]
    · exact List.pairwise_map.mpr hsorted
    · rw [List.pairwise_map]
      exact hsorted.imp fun hlt => decide_eq_true hlt.le
  have hkept : l.sums.filter (fun x => !x.2.isZero) = l.sums := by
    rw [List.filter_eq_self, hsums]
    intro x hx
    obtain ⟨e, he, rfl⟩ := List.mem_map.mp hx
    simpa [Extended.isZero] using hvalues e (Array.mem_toList_iff.mp he)
  have hentry : ∀ e ∈ l.entries.toList, (⟨e.partner, e.value, none⟩ : Entry κ) = e := by
    intro e he
    rw [← hlinks e (Array.mem_toList_iff.mp he)]
  have hentries : l.merge.entries = l.entries := by
    rw [entries_merge, hkept, hsums, List.map_map]
    apply Array.toList_inj.mp
    rw [List.toList_toArray]
    exact (List.map_congr_left hentry).trans (List.map_id _)
  have hcount : l.merge.nrUnlinked = l.nrUnlinked := by
    have hlength : l.merge.nrUnlinked = (l.sums.filter fun x => !x.2.isZero).length := rfl
    rw [hlength, hkept, hsums, List.length_map, hunlinked, Array.length_toList, size]
  have hactiveDescents : l.merge.activeDescents = l.activeDescents := (hdescents .active).symm
  have hrestDescents : l.merge.restDescents = l.restDescents := (hdescents .rest).symm
  calc l.merge
      = ⟨l.merge.entries, l.nrActive, l.merge.nrUnlinked, l.merge.activeDescents,
          l.merge.restDescents⟩ := rfl
    _ = l := by rw [hentries, hcount, hactiveDescents, hrestDescents]

theorem nrUnlinked_merge (l : Incidence κ) : l.merge.nrUnlinked = l.merge.size := by
  rw [size, entries_merge, List.size_toArray, List.length_map]
  rfl

theorem descents_merge (l : Incidence κ) (part : Part) : l.merge.descents part = 0 := by
  cases part <;> rfl

theorem merge_merge (l : Incidence κ) : l.merge.merge = l.merge := by
  apply merge_eq_self l.pairwise_merge _ _ l.nrUnlinked_merge l.descents_merge
  · intro e he
    exact (mem_entries_merge he).2.1
  · intro e he
    exact (mem_entries_merge he).1

/-- Merging a list in which no entry is linked, so that its active part is empty, adds up the values
of each partner exactly: the partners are in strictly ascending order, those that are left are the
ones with a total other than zero, and this total is the value. No entry has a link, all counts are
right, and merging again changes nothing. -/
theorem merge_exact (hactive : l.nrActive = 0)
    (hfinite : ∀ e ∈ l.entries, e.value.isFinite = true) :
    (l.merge.entries.toList.Pairwise fun e e' => index e.partner < index e'.partner) ∧
    (∀ k, (∃ e ∈ l.merge.entries, e.partner = k) ↔ l.total k ≠ 0) ∧
    (∀ e ∈ l.merge.entries, e.value = l.total e.partner ∧ e.link = none) ∧
    (l.merge.nrActive = 0 ∧ l.merge.nrUnlinked = l.merge.size ∧
      (∀ part, l.merge.isSorted part = true) ∧ l.merge.isConsistent = true) ∧
    l.merge.merge = l.merge := by
  have hvalue (e : Entry κ) (he : e ∈ l.merge.entries) : e.value = l.total e.partner := by
    rw [← total_merge hfinite, total_merge_of_mem he]
  refine ⟨l.pairwise_merge, fun k => ⟨?_, ?_⟩, ?_, ⟨hactive, l.nrUnlinked_merge, ?_, ?_⟩,
    l.merge_merge⟩
  · rintro ⟨e, he, rfl⟩
    rw [← hvalue e he]
    exact (mem_entries_merge he).2.1
  · intro htotal
    by_contra! hnone
    apply htotal
    rw [← total_merge hfinite, total_of_forall_ne hnone]
  · intro e he
    exact ⟨hvalue e he, (mem_entries_merge he).1⟩
  · intro part
    rw [isSorted, descents_merge]
    rfl
  · rw [isConsistent_iff]
    refine ⟨?_, ?_, fun e he => (mem_entries_merge he).2.1, l.counted_merge⟩
    · exact hactive.trans_le (Nat.zero_le _)
    · intro e he
      have hempty : l.merge.activeEntries = [] := by
        have hzero : l.merge.nrActive = 0 := hactive
        simp [activeEntries, hzero]
      rw [hempty] at he
      cases he

/-- Three partners, of which the sums of one pass through zero and those of another end there. -/
theorem merge_exact_interleaved :
    let l : Incidence Nat := [(3, 1), (1, 2), (3, -1), (5, 4), (3, 7), (1, -2)].foldl
      (fun l (x : Nat × Int) => l.push ⟨x.1, .ofInt x.2, none⟩) empty
    l.nrActive = 0 ∧ (∀ e ∈ l.entries, e.value.isFinite = true) ∧ l.total 3 = 7 ∧
    l.total 1 = 0 ∧ (∃ e ∈ l.merge.entries, e.partner = 3) ∧
    ¬ (∃ e ∈ l.merge.entries, e.partner = 1) ∧ l.merge.merge = l.merge := by
  intro l
  have hactive : l.nrActive = 0 := by decide
  have hfinite : ∀ e ∈ l.entries, e.value.isFinite = true := by decide
  have hthree : l.total 3 = 7 := by decide +kernel
  have hone : l.total 1 = 0 := by decide +kernel
  have hmerge := merge_exact hactive hfinite
  refine ⟨hactive, hfinite, hthree, hone, (hmerge.2.1 3).mpr ?_, ?_, hmerge.2.2.2.2⟩
  · rw [hthree]
    decide
  · rw [hmerge.2.1 1, hone]
    decide

end Incidence

end CertifiedLp
