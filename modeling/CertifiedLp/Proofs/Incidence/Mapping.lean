import Mathlib
import CertifiedLp.Proofs.Incidence.Keyed

/-!
# Lists with other values

How an incidence list is rearranged does not depend on the values in it: every operation commutes
with a function that is applied to all values.
-/

namespace CertifiedLp

open Reference (index)

/-- Changing an element of an array that a function was applied to. -/
theorem modify_map {α β : Type} {φ : α → β} (xs : Array α) (i : Nat) {g : α → α} {g' : β → β}
    (h : ∀ x, g' (φ x) = φ (g x)) : (xs.map φ).modify i g' = (xs.modify i g).map φ := by
  apply Array.ext_getElem?
  intro j
  rw [Array.getElem?_map, Array.getElem?_modify, Array.getElem?_modify, Array.getElem?_map]
  split
  · rw [Option.map_map, Option.map_map]
    exact congrArg (Option.map · xs[j]?) (funext h)
  · rfl

/-- The entry with another value. -/
def Entry.mapValue {κ : Type} (f : Extended → Extended) (e : Entry κ) : Entry κ :=
  { e with value := f e.value }

namespace Incidence

variable {κ : Type} {f : Extended → Extended} {l : Incidence κ}

/-- The list with a function applied to all values. -/
def mapValues (f : Extended → Extended) (l : Incidence κ) : Incidence κ :=
  { l with entries := l.entries.map (Entry.mapValue f) }

@[simp] theorem mapValues_empty : (empty : Incidence κ).mapValues f = empty := by
  simp [mapValues, empty]

@[simp] theorem size_mapValues (f : Extended → Extended) (l : Incidence κ) :
    (l.mapValues f).size = l.size := by
  simp [size, mapValues]

@[simp] theorem nrActive_mapValues (f : Extended → Extended) (l : Incidence κ) :
    (l.mapValues f).nrActive = l.nrActive := rfl

@[simp] theorem nrUnlinked_mapValues (f : Extended → Extended) (l : Incidence κ) :
    (l.mapValues f).nrUnlinked = l.nrUnlinked := rfl

theorem entry?_mapValues (f : Extended → Extended) (l : Incidence κ) (i : Nat) :
    entry? (l.mapValues f) i = (l.entry? i).map (Entry.mapValue f) := by
  simp [Incidence.entry?, mapValues]

@[simp] theorem link?_mapValues (f : Extended → Extended) (l : Incidence κ) (i : Nat) :
    (l.mapValues f).link? i = l.link? i := by
  rw [link?, link?, entry?_mapValues]
  cases l.entry? i <;> rfl

@[simp] theorem moveTo?_mapValues (f : Extended → Extended) (l : Incidence κ) :
    (l.mapValues f).moveTo? = l.moveTo? := by
  funext i
  rw [moveTo?, moveTo?, entry?_mapValues]
  cases l.entry? i <;> rfl

theorem modifyDescents_mapValues (l : Incidence κ) (part : Part) (g : Nat → Nat) :
    (l.mapValues f).modifyDescents part g = (l.modifyDescents part g).mapValues f := by
  cases part <;> rfl

/-! ## Single entries -/

theorem setLink_mapValues (l : Incidence κ) (i : Nat) (link : Option Nat) :
    (l.mapValues f).setLink i link = (l.setLink i link).mapValues f := by
  have hentries : (l.mapValues f).entries.modify i ({ · with link }) =
      (l.entries.modify i ({ · with link })).map (Entry.mapValue f) :=
    modify_map l.entries i fun _ => rfl
  rw [setLink, setLink, link?_mapValues, hentries]
  split <;> rfl

theorem relink_mapValues (l : Incidence κ) (i link : Nat) :
    (l.mapValues f).relink i link = (l.relink i link).mapValues f := by
  have hentries : (l.mapValues f).entries.modify i ({ · with link := some link }) =
      (l.entries.modify i ({ · with link := some link })).map (Entry.mapValue f) :=
    modify_map l.entries i fun _ => rfl
  rw [relink, relink, hentries]
  rfl

/-! ## Rearranging -/

variable [Reference κ]

theorem isDescent_mapValues (f : Extended → Extended) (l : Incidence κ) (i : Nat) :
    (l.mapValues f).isDescent i = l.isDescent i := by
  rw [isDescent, isDescent, entry?_mapValues, entry?_mapValues]
  cases l.entry? i <;> cases l.entry? (i + 1) <;> rfl

theorem uncountPair_mapValues (l : Incidence κ) (i : Nat) :
    (l.mapValues f).uncountPair i = (l.uncountPair i).mapValues f := by
  rw [uncountPair, uncountPair, isDescent_mapValues]
  split
  · exact modifyDescents_mapValues l _ _
  · rfl

theorem countPair_mapValues (l : Incidence κ) (i : Nat) :
    (l.mapValues f).countPair i = (l.countPair i).mapValues f := by
  rw [countPair, countPair, isDescent_mapValues]
  split
  · exact modifyDescents_mapValues l _ _
  · rfl

theorem changingPairs_mapValues (l : Incidence κ) (pairs : List Nat)
    {change change' : Incidence κ → Incidence κ}
    (h : ∀ l, change' (l.mapValues f) = (change l).mapValues f) :
    (l.mapValues f).changingPairs pairs change' = (l.changingPairs pairs change).mapValues f := by
  rw [changingPairs, changingPairs, List.foldl_hom (mapValues f) uncountPair_mapValues, h,
    List.foldl_hom (mapValues f) countPair_mapValues]

theorem push_mapValues (l : Incidence κ) (e : Entry κ) :
    (l.mapValues f).push (e.mapValue f) = (l.push e).mapValues f := by
  have hpushed (l : Incidence κ) :
      ({ l.mapValues f with entries := (l.mapValues f).entries.push (e.mapValue f) } :
        Incidence κ) = mapValues f { l with entries := l.entries.push e } := by
    simp [mapValues]
  rw [push, push, size_mapValues, changingPairs_mapValues l _ hpushed]
  have hlink : (e.mapValue f).link = e.link := rfl
  rw [hlink]
  split <;> rfl

theorem swap_mapValues (l : Incidence κ) (i j : Nat) :
    (l.mapValues f).swap i j = ((l.swap i j).1.mapValues f, (l.swap i j).2) := by
  have hswapped (l : Incidence κ) :
      ({ l.mapValues f with entries := (l.mapValues f).entries.swapIfInBounds i j } :
        Incidence κ) = mapValues f { l with entries := l.entries.swapIfInBounds i j } := by
    rw [mapValues, mapValues, map_swapIfInBounds]
  rw [swap, swap]
  split
  · rfl
  · dsimp only
    rw [changingPairs_mapValues l _ hswapped, moveTo?_mapValues]

theorem setNrActive_mapValues (l : Incidence κ) (n : Nat) :
    (l.mapValues f).setNrActive n = (l.setNrActive n).mapValues f := by
  rw [setNrActive, setNrActive, nrActive_mapValues]
  exact changingPairs_mapValues l _ fun _ => rfl

theorem popUnlinked_mapValues (l : Incidence κ) :
    (l.mapValues f).popUnlinked = l.popUnlinked.mapValues f := by
  have hpopped (l : Incidence κ) :
      ({ l.mapValues f with entries := (l.mapValues f).entries.pop } : Incidence κ) =
        mapValues f { l with entries := l.entries.pop } := by
    simp [mapValues]
  rw [popUnlinked, popUnlinked, size_mapValues, changingPairs_mapValues l _ hpopped]
  rfl

theorem activate_mapValues (l : Incidence κ) (i : Nat) :
    (l.mapValues f).activate i = ((l.activate i).1.mapValues f, (l.activate i).2) := by
  rw [activate, activate, swap_mapValues, nrActive_mapValues]
  dsimp only
  rw [setNrActive_mapValues]

theorem remove_mapValues (l : Incidence κ) (i : Nat) :
    (l.mapValues f).remove i = ((l.remove i).1.mapValues f, (l.remove i).2) := by
  rw [remove, remove, setLink_mapValues]
  simp only [size_mapValues, nrActive_mapValues, swap_mapValues, setNrActive_mapValues,
    popUnlinked_mapValues]
  split
  · rfl
  · split <;> rfl

/-! ## Sorting and searching -/

omit [Reference κ] in
@[simp] theorem range_mapValues (f : Extended → Extended) (l : Incidence κ) (part : Part) :
    (l.mapValues f).range part = l.range part := by
  cases part <;> simp [range]

omit [Reference κ] in
theorem positioned_mapValues (l : Incidence κ) (part : Part) :
    (l.mapValues f).positioned part =
      (l.positioned part).map (Prod.map (Entry.mapValue f) id) := by
  rw [positioned, positioned, range_mapValues]
  dsimp only
  rw [mapValues, ← Array.map_extract, Array.toList_map, List.zipIdx_map]

theorem sort_mapValues (l : Incidence κ) (part : Part) :
    (l.mapValues f).sort part = ((l.sort part).1.mapValues f, (l.sort part).2) := by
  have hsorted : (l.mapValues f).isSorted part = l.isSorted part := by cases part <;> rfl
  have hmerged : ((l.mapValues f).positioned part).mergeSort
      (fun a b => index a.1.partner ≤ index b.1.partner) =
      ((l.positioned part).mergeSort fun a b => index a.1.partner ≤ index b.1.partner).map
        (Prod.map (Entry.mapValue f) id) := by
    rw [positioned_mapValues]
    exact (List.map_mergeSort (f := Prod.map (Entry.mapValue f) id) fun _ _ _ _ => rfl).symm
  rw [sort, sort, hsorted]
  split
  · rfl
  · dsimp only
    rw [hmerged, range_mapValues]
    generalize (l.positioned part).mergeSort _ = sorted
    rw [← modifyDescents_mapValues, List.zipIdx_map, List.filterMap_map, size_mapValues]
    refine Prod.ext ?_ rfl
    simp [mapValues, Function.comp_def]

theorem keyAt_mapValues (l : Incidence κ) (i : Nat) : (l.mapValues f).keyAt i = l.keyAt i := by
  rw [keyAt, keyAt, entry?_mapValues]
  cases l.entry? i <;> rfl

theorem bisect_mapValues (l : Incidence κ) (key base size : Nat) :
    (l.mapValues f).bisect key base size = l.bisect key base size := by
  fun_induction l.bisect key base size with
  | case1 base size h => rw [bisect, if_pos h]
  | case2 base size h half middle ih =>
    rw [bisect, if_neg h]
    dsimp only
    rw [keyAt_mapValues]
    exact ih

theorem find?_mapValues (l : Incidence κ) (part : Part) (partner : κ) :
    (l.mapValues f).find? part partner = l.find? part partner := by
  rw [find?, find?, range_mapValues]
  simp only [bisect_mapValues, keyAt_mapValues]

/-! ## Checking -/

omit [Reference κ] in
theorem partners_mapValues (l : Incidence κ) :
    (l.mapValues f).entries.toList.map (·.partner) = l.entries.toList.map (·.partner) := by
  rw [mapValues, Array.toList_map, List.map_map]
  rfl

theorem isZero_apply (hf : Function.Injective f) (hzero : f 0 = 0) (v : Extended) :
    (f v).isZero = v.isZero := by
  rw [Bool.eq_iff_iff, Extended.isZero_iff, Extended.isZero_iff]
  constructor
  · intro hv
    exact hf (hv.trans hzero.symm)
  · rintro rfl
    exact hzero

/-- The check of a list only tells apart whether values are zero. -/
theorem isConsistent_mapValues (hf : Function.Injective f) (hzero : f 0 = 0) (l : Incidence κ) :
    (l.mapValues f).isConsistent = l.isConsistent := by
  have hdescents (part : Part) : (l.mapValues f).countDescents part = l.countDescents part := by
    rw [countDescents, countDescents, size_mapValues]
    congr 1
    funext i
    rw [isDescent_mapValues]
    rfl
  have hactive : (l.mapValues f).activeEntries.all (·.link.isSome) =
      l.activeEntries.all (·.link.isSome) := by
    rw [activeEntries, activeEntries, mapValues, ← Array.map_extract, Array.toList_map,
      List.all_map]
    rfl
  have hunlinked : (l.mapValues f).entries.toList.countP (·.link.isNone) =
      l.entries.toList.countP (·.link.isNone) := by
    rw [mapValues, Array.toList_map, List.countP_map]
    rfl
  have hvalues : ((l.mapValues f).entries.all fun e => !e.value.isZero) =
      l.entries.all fun e => !e.value.isZero := by
    rw [mapValues, Array.all_map]
    congr 1
    funext e
    exact congrArg not (isZero_apply hf hzero e.value)
  rw [isConsistent, isConsistent, hdescents, hdescents, hactive, hunlinked, hvalues, size_mapValues]
  rfl

end Incidence

end CertifiedLp
