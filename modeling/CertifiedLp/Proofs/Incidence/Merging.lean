import Mathlib
import CertifiedLp.Proofs.Extended
import CertifiedLp.Proofs.Incidence.Counts

/-!
# Merging

A merged list is in strictly ascending order, has no links, and has values other than zero only. Its
value for a partner is the sum of the values that were there before.
-/

namespace CertifiedLp

open Reference (index)

namespace Incidence

variable {κ : Type} [Reference κ] {l : Incidence κ} {e : Entry κ}

/-- The partners of sums are those of the summands. -/
theorem exists_mem_of_mem_sumRuns {xs : List (κ × Extended)} {x : κ × Extended}
    (h : x ∈ sumRuns xs) : ∃ y ∈ xs, y.1 = x.1 := by
  fun_induction sumRuns xs with
  | case1 => cases h
  | case2 y => exact ⟨y, by simp, by rw [List.mem_singleton.mp h]⟩
  | case3 y z rest hindex ih =>
    obtain ⟨w, hw, hpartner⟩ := ih h
    rcases List.mem_cons.mp hw with rfl | hw
    · exact ⟨y, by simp, hpartner⟩
    · exact ⟨w, by simp [hw], hpartner⟩
  | case4 y z rest hindex ih =>
    rcases List.mem_cons.mp h with rfl | h
    · exact ⟨x, by simp, rfl⟩
    · obtain ⟨w, hw, hpartner⟩ := ih h
      exact ⟨w, List.mem_cons_of_mem _ hw, hpartner⟩

theorem isFinite_of_mem_sumRuns {xs : List (κ × Extended)} {x : κ × Extended}
    (hfinite : ∀ y ∈ xs, y.2.isFinite = true) (h : x ∈ sumRuns xs) : x.2.isFinite = true := by
  fun_induction sumRuns xs with
  | case1 => cases h
  | case2 y => exact hfinite x h
  | case3 y z rest hindex ih =>
    refine ih (fun w hw => ?_) h
    rcases List.mem_cons.mp hw with rfl | hw
    · obtain ⟨a, ha⟩ := Extended.isFinite_iff.mp (hfinite y (by simp))
      obtain ⟨b, hb⟩ := Extended.isFinite_iff.mp (hfinite z (by simp))
      simp [ha, hb]
    · exact hfinite w (by simp [hw])
  | case4 y z rest hindex ih =>
    rcases List.mem_cons.mp h with rfl | h
    · exact hfinite x (by simp)
    · exact ih (fun w hw => hfinite w (List.mem_cons_of_mem _ hw)) h

/-- The sums of an ascending list are in strictly ascending order. -/
theorem pairwise_sumRuns {xs : List (κ × Extended)}
    (h : xs.Pairwise fun x y => index x.1 ≤ index y.1) :
    (sumRuns xs).Pairwise fun x y => index x.1 < index y.1 := by
  fun_induction sumRuns xs with
  | case1 => exact .nil
  | case2 y => simp
  | case3 y z rest hindex ih =>
    apply ih
    rw [List.pairwise_cons, List.pairwise_cons] at h
    rw [List.pairwise_cons]
    exact ⟨fun w hw => h.1 w (by simp [hw]), h.2.2⟩
  | case4 y z rest hindex ih =>
    rw [List.pairwise_cons] at h
    refine List.pairwise_cons.mpr ⟨fun w hw => ?_, ih h.2⟩
    obtain ⟨v, hv, hpartner⟩ := exists_mem_of_mem_sumRuns hw
    rw [← hpartner]
    have hle := h.1 z (by simp)
    rcases List.mem_cons.mp hv with rfl | hv
    · omega
    · have hbehind := (List.pairwise_cons.mp h.2).1 v hv
      omega

/-- The sums by partner, in order. -/
def sums (l : Incidence κ) : List (κ × Extended) :=
  sumRuns ((l.entries.toList.map fun e => (e.partner, e.value)).mergeSort fun a b =>
    index a.1 ≤ index b.1)

theorem entries_merge (l : Incidence κ) : l.merge.entries =
    ((l.sums.filter fun x => !x.2.isZero).map fun x => ⟨x.1, x.2, none⟩).toArray := rfl

theorem pairwise_sums (l : Incidence κ) :
    l.sums.Pairwise fun x y => index x.1 < index y.1 := by
  apply pairwise_sumRuns
  let le (a b : κ × Extended) : Bool := decide (index a.1 ≤ index b.1)
  have htrans (a b c : κ × Extended) : le a b = true → le b c = true → le a c = true := by
    simpa [le] using Nat.le_trans
  have htotal (a b : κ × Extended) : (le a b || le b a) = true := by
    simpa [le] using Nat.le_total (index a.1) (index b.1)
  have hpairwise := List.pairwise_mergeSort htrans htotal
    (l.entries.toList.map fun e => (e.partner, e.value))
  exact hpairwise.imp of_decide_eq_true

/-- An entry of a merged list. -/
theorem mem_entries_merge (he : e ∈ l.merge.entries) :
    e.link = none ∧ e.value ≠ 0 ∧ ∃ e' ∈ l.entries, e'.partner = e.partner := by
  rw [entries_merge, List.mem_toArray, List.mem_map] at he
  obtain ⟨x, hx, rfl⟩ := he
  obtain ⟨hx, hzero⟩ := List.mem_filter.mp hx
  refine ⟨rfl, fun hvalue => ?_, ?_⟩
  · simp [Extended.isZero, show x.2 = 0 from hvalue] at hzero
  · obtain ⟨y, hy, hpartner⟩ := exists_mem_of_mem_sumRuns hx
    rw [List.mem_mergeSort, List.mem_map] at hy
    obtain ⟨e', he', rfl⟩ := hy
    exact ⟨e', by simpa using he', hpartner⟩

theorem isFinite_merge (hfinite : ∀ e ∈ l.entries, e.value.isFinite = true)
    (he : e ∈ l.merge.entries) : e.value.isFinite = true := by
  rw [entries_merge, List.mem_toArray, List.mem_map] at he
  obtain ⟨x, hx, rfl⟩ := he
  refine isFinite_of_mem_sumRuns (fun y hy => ?_) (List.mem_filter.mp hx).1
  rw [List.mem_mergeSort, List.mem_map] at hy
  obtain ⟨e', he', rfl⟩ := hy
  exact hfinite e' (by simpa using he')

theorem pairwise_merge (l : Incidence κ) :
    l.merge.entries.toList.Pairwise fun e e' => index e.partner < index e'.partner := by
  rw [entries_merge, List.pairwise_map]
  exact l.pairwise_sums.filter _

/-- A merged list has at most one entry for each partner. -/
theorem length_filter_merge_le_one (l : Incidence κ) {p : Entry κ → Bool}
    (hp : ∀ e e', p e = true → p e' = true → e.partner = e'.partner) :
    (l.merge.entries.toList.filter p).length ≤ 1 := by
  have hpairwise := l.pairwise_merge.filter p
  have hmem : ∀ e ∈ l.merge.entries.toList.filter p, p e = true := fun e he =>
    List.of_mem_filter he
  revert hpairwise hmem
  generalize l.merge.entries.toList.filter p = es
  intro hpairwise hmem
  match es with
  | [] => exact Nat.zero_le _
  | [_] => exact Nat.le_refl _
  | e :: e' :: _ =>
    have hlt := (List.pairwise_cons.mp hpairwise).1 e' (by simp)
    rw [hp e e' (hmem e (by simp)) (hmem e' (by simp))] at hlt
    exact (Nat.lt_irrefl _ hlt).elim

theorem counted_merge (l : Incidence κ) : l.merge.Counted := by
  constructor
  · have hall : l.merge.entries.toList.countP (·.link.isNone) = l.merge.entries.toList.length := by
      rw [List.countP_eq_length]
      intro e he
      rw [(mem_entries_merge (Array.mem_toList_iff.mp he)).1]
      rfl
    rw [hall, entries_merge]
    simp [merge, sums]
  · intro part
    have hzero : l.merge.descents part = 0 := by cases part <;> rfl
    rw [hzero, countDescents_eq (Nat.le_refl _), eq_comm, List.countP_eq_zero]
    intro q _ hdescent
    obtain ⟨first, second, hfirst, hsecond, -, -, hindex⟩ := descentIn_iff.mp hdescent
    obtain ⟨hq, rfl⟩ := Array.getElem?_eq_some_iff.mp hfirst
    obtain ⟨hq', rfl⟩ := Array.getElem?_eq_some_iff.mp hsecond
    have hlt := List.pairwise_iff_getElem.mp l.pairwise_merge q (q + 1) (by simpa using hq)
      (by simpa using hq') (by omega)
    simp only [Array.getElem_toList] at hlt
    omega

/-! ## Sums of values -/

/-- The sum of the values for a partner. -/
def weight (xs : List (κ × Extended)) (k : κ) : Rat :=
  (xs.map fun x => if index x.1 = index k then x.2.rational else 0).sum

@[simp] theorem weight_cons (x : κ × Extended) (xs : List (κ × Extended)) (k : κ) :
    weight (x :: xs) k = (if index x.1 = index k then x.2.rational else 0) + weight xs k := by
  simp [weight]

theorem weight_perm {xs ys : List (κ × Extended)} (h : xs.Perm ys) (k : κ) :
    weight xs k = weight ys k :=
  (h.map _).sum_eq

theorem weight_sumRuns {xs : List (κ × Extended)} (hfinite : ∀ y ∈ xs, y.2.isFinite = true)
    (k : κ) : weight (sumRuns xs) k = weight xs k := by
  fun_induction sumRuns xs with
  | case1 => rfl
  | case2 y => rfl
  | case3 y z rest hindex ih =>
    obtain ⟨a, ha⟩ := Extended.isFinite_iff.mp (hfinite y (by simp))
    obtain ⟨b, hb⟩ := Extended.isFinite_iff.mp (hfinite z (by simp))
    rw [ih fun w hw => ?_]
    · simp only [weight_cons, ← hindex, ha, hb]
      split <;> simp [add_assoc]
    · rcases List.mem_cons.mp hw with rfl | hw
      · simp [ha, hb]
      · exact hfinite w (by simp [hw])
  | case4 y z rest hindex ih =>
    rw [weight_cons, weight_cons, ih fun w hw => hfinite w (List.mem_cons_of_mem _ hw)]

/-- Values that are zero may be dropped. -/
theorem weight_filter (xs : List (κ × Extended)) (k : κ) :
    weight (xs.filter fun x => !x.2.isZero) k = weight xs k := by
  induction xs with
  | nil => rfl
  | cons x xs ih =>
    rw [List.filter_cons]
    split
    · rw [weight_cons, weight_cons, ih]
    · next hzero =>
      have hvalue : x.2 = .finite 0 := by simpa [Extended.isZero, Extended.zero_def] using hzero
      rw [weight_cons, ih, hvalue]
      simp

/-- Merging keeps the sum of the values for each partner. -/
theorem weight_merge (hfinite : ∀ e ∈ l.entries, e.value.isFinite = true) (k : κ) :
    weight (l.merge.entries.toList.map fun e => (e.partner, e.value)) k =
      weight (l.entries.toList.map fun e => (e.partner, e.value)) k := by
  have hmap : (l.merge.entries.toList.map fun e => (e.partner, e.value)) =
      l.sums.filter fun x => !x.2.isZero := by
    simp [entries_merge, Function.comp_def]
  rw [hmap, weight_filter, sums, weight_sumRuns, weight_perm (List.mergeSort_perm ..)]
  intro y hy
  rw [List.mem_mergeSort, List.mem_map] at hy
  obtain ⟨e, he, rfl⟩ := hy
  exact hfinite e (by simpa using he)

end Incidence

end CertifiedLp
