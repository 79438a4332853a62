import Mathlib
import CertifiedLp.Proofs.Incidence.Sorting

/-!
# The counts of an incidence list

A list counts its unlinked entries and, in each part, the neighbours that are out of order. No
operation counts anew: an operation corrects the counts where it changes something. `Counted` says
that the counts are right, and every operation keeps it.
-/

namespace CertifiedLp

open Reference (index)

/-- What satisfies a test is among some numbers or is not. -/
theorem countP_range_eq_add {p : Nat → Bool} {pairs : List Nat} (hnodup : pairs.Nodup) {n : Nat}
    (h : ∀ q, p q = true → q < n) :
    (List.range n).countP p = pairs.countP p + (List.range n).countP fun q => p q && q ∉ pairs := by
  have hmem : ((List.range n).filter (· ∈ pairs)).countP p = pairs.countP p := by
    rw [List.countP_eq_length_filter, List.countP_eq_length_filter, List.filter_filter]
    refine List.Perm.length_eq ((List.perm_ext_iff_of_nodup ?_ ?_).mpr ?_)
    · exact List.nodup_range.filter _
    · exact hnodup.filter _
    · intro q
      have := h q
      simp only [List.mem_filter, List.mem_range, Bool.and_eq_true, decide_eq_true_eq]
      tauto
  rw [List.countP_eq_countP_filter_add _ p (· ∈ pairs), hmem, List.countP_filter]
  congr 2
  funext q
  simp

theorem nodup_eraseDups (xs : List Nat) : xs.eraseDups.Nodup := by
  induction hn : xs.length using Nat.strong_induction_on generalizing xs with
  | _ n ih =>
    cases xs with
    | nil => simp
    | cons x xs =>
      rw [List.eraseDups_cons, List.nodup_cons]
      constructor
      · simp
      · have hle := List.length_filter_le (fun y => !y == x) xs
        rw [List.length_cons] at hn
        exact ih _ (by omega) _ rfl

variable {κ : Type} [Reference κ]

namespace Incidence

variable {l l' : Incidence κ} {part : Part} {pairs : List Nat} {i j n position : Nat} {e : Entry κ}

/-! ## Neighbours out of order -/

/-- A position and the next one are out of order, and in the given part. -/
def descentIn (l : Incidence κ) (part : Part) (position : Nat) : Bool :=
  l.isDescent position && l.partOf position == part

theorem descentIn_iff : l.descentIn part position = true ↔
    ∃ first second, l.entry? position = some first ∧ l.entry? (position + 1) = some second ∧
      l.partOf position = part ∧ l.partOf (position + 1) = part ∧
        index second.partner < index first.partner := by
  rw [descentIn, isDescent]
  rcases l.entry? position with _ | first <;> rcases l.entry? (position + 1) with _ | second
  · simp
  · simp
  · simp
  · simp only [Bool.and_eq_true, beq_iff_eq, decide_eq_true_eq, Option.some.injEq]
    constructor
    · rintro ⟨⟨hsame, hlt⟩, hpart⟩
      exact ⟨_, _, rfl, rfl, hpart, hsame ▸ hpart, hlt⟩
    · rintro ⟨_, _, rfl, rfl, hpart, hnext, hlt⟩
      exact ⟨⟨hpart.trans hnext.symm, hlt⟩, hpart⟩

theorem lt_size_of_descentIn (h : l.descentIn part position = true) : position + 1 < l.size := by
  obtain ⟨first, second, -, hsecond, -⟩ := descentIn_iff.mp h
  exact (Array.getElem?_eq_some_iff.mp hsecond).1

/-- Whether there is a descent depends on two partners and the boundary only. -/
theorem descentIn_congr
    (hfirst : (l'.entry? position).map (·.partner) = (l.entry? position).map (·.partner))
    (hsecond : (l'.entry? (position + 1)).map (·.partner) =
      (l.entry? (position + 1)).map (·.partner))
    (hpart : l'.partOf position = l.partOf position)
    (hnext : l'.partOf (position + 1) = l.partOf (position + 1)) :
    l'.descentIn part position = l.descentIn part position := by
  rw [descentIn, descentIn, isDescent, isDescent, hpart, hnext]
  rcases h1 : l.entry? position with _ | first <;> rcases h1' : l'.entry? position with _ | first' <;>
    rcases h2 : l.entry? (position + 1) with _ | second <;>
    rcases h2' : l'.entry? (position + 1) with _ | second' <;> simp_all

theorem descentIn_congr_entries (hentries : l'.entries = l.entries)
    (hactive : l'.nrActive = l.nrActive) : l'.descentIn part position = l.descentIn part position :=
  descentIn_congr (by rw [ entry?, entry?, hentries]) (by rw [ entry?, entry?, hentries])
    (by rw [partOf, partOf, hactive]) (by rw [partOf, partOf, hactive])

theorem countDescents_eq (hn : l.size ≤ n) :
    l.countDescents part = (List.range n).countP (l.descentIn part) := by
  obtain ⟨k, rfl⟩ := Nat.exists_eq_add_of_le hn
  rw [List.range_add, List.countP_append, countDescents]
  have hrest : ((List.range k).map (l.size + ·)).countP (l.descentIn part) = 0 := by
    rw [List.countP_eq_zero]
    intro q hq hdescent
    obtain ⟨q, -, rfl⟩ := List.mem_map.mp hq
    have := lt_size_of_descentIn hdescent
    omega
  rw [hrest]
  rfl

/-! ## Correcting the counts -/

omit [Reference κ] in
theorem descents_modifyDescents_of_ne {other : Part} (h : other ≠ part) (f : Nat → Nat) :
    (l.modifyDescents part f).descents other = l.descents other := by
  cases part <;> cases other <;> simp_all [modifyDescents, descents]

theorem descentIn_uncountPair (l : Incidence κ) (pair position : Nat) :
    (l.uncountPair pair).descentIn part position = l.descentIn part position := by
  unfold uncountPair
  split
  · exact descentIn_congr_entries (entries_modifyDescents _ _ _) (nrActive_modifyDescents _ _ _)
  · rfl

theorem descentIn_countPair (l : Incidence κ) (pair position : Nat) :
    (l.countPair pair).descentIn part position = l.descentIn part position := by
  unfold countPair
  split
  · exact descentIn_congr_entries (entries_modifyDescents _ _ _) (nrActive_modifyDescents _ _ _)
  · rfl

theorem descents_uncountPair (l : Incidence κ) (part : Part) (position : Nat) :
    (l.uncountPair position).descents part =
      l.descents part - if l.descentIn part position then 1 else 0 := by
  rw [uncountPair, descentIn]
  by_cases hpart : part = l.partOf position
  · subst hpart
    split <;> simp [*]
  · split
    · rw [descents_modifyDescents_of_ne hpart]
      simp [Ne.symm hpart]
    · simp [*]

theorem descents_countPair (l : Incidence κ) (part : Part) (position : Nat) :
    (l.countPair position).descents part =
      l.descents part + if l.descentIn part position then 1 else 0 := by
  rw [countPair, descentIn]
  by_cases hpart : part = l.partOf position
  · subst hpart
    split <;> simp [*]
  · split
    · rw [descents_modifyDescents_of_ne hpart]
      simp [Ne.symm hpart]
    · simp [*]

theorem descents_foldl_uncountPair (l : Incidence κ) (part : Part) (pairs : List Nat) :
    (pairs.foldl uncountPair l).descents part =
      l.descents part - pairs.countP (l.descentIn part) := by
  induction pairs generalizing l with
  | nil => rfl
  | cons pair pairs ih =>
    have hsame : (l.uncountPair pair).descentIn part = l.descentIn part :=
      funext fun q => descentIn_uncountPair l pair q
    rw [List.foldl_cons, ih, hsame, descents_uncountPair, List.countP_cons]
    omega

theorem descents_foldl_countPair (l : Incidence κ) (part : Part) (pairs : List Nat) :
    (pairs.foldl countPair l).descents part =
      l.descents part + pairs.countP (l.descentIn part) := by
  induction pairs generalizing l with
  | nil => rfl
  | cons pair pairs ih =>
    have hsame : (l.countPair pair).descentIn part = l.descentIn part :=
      funext fun q => descentIn_countPair l pair q
    rw [List.foldl_cons, ih, hsame, descents_countPair, List.countP_cons]
    omega

theorem entries_foldl_uncountPair (l : Incidence κ) (pairs : List Nat) :
    (pairs.foldl uncountPair l).entries = l.entries := by
  induction pairs generalizing l with
  | nil => rfl
  | cons pair pairs ih =>
    rw [List.foldl_cons, ih, uncountPair]
    split <;> simp

theorem nrActive_foldl_uncountPair (l : Incidence κ) (pairs : List Nat) :
    (pairs.foldl uncountPair l).nrActive = l.nrActive := by
  induction pairs generalizing l with
  | nil => rfl
  | cons pair pairs ih =>
    rw [List.foldl_cons, ih, uncountPair]
    split <;> simp

/-- The descents of a list are counted. -/
def DescentsCounted (l : Incidence κ) : Prop := ∀ part, l.descents part = l.countDescents part

/-- A change of some pairs of neighbours keeps the count of descents if it leaves all other pairs
alone. -/
theorem DescentsCounted.changingPairs {change : Incidence κ → Incidence κ}
    {f : Array (Entry κ) → Array (Entry κ)} {n : Nat → Nat} (h : l.DescentsCounted)
    (hentries : ∀ l, (change l).entries = f l.entries)
    (hactive : ∀ l, (change l).nrActive = n l.nrActive)
    (hdescents : ∀ l part, (change l).descents part = l.descents part)
    (hpairs : ∀ part, ∀ q ∉ pairs, (change l).descentIn part q = l.descentIn part q) :
    (l.changingPairs pairs change).DescentsCounted := by
  intro part
  set after := l.changingPairs pairs change with hafter
  have hafterDescent (q : Nat) : after.descentIn part q = (change l).descentIn part q := by
    apply descentIn_congr_entries
    · rw [hafter, entries_changingPairs hentries, hentries]
    · rw [hafter, nrActive_changingPairs hactive, hactive]
  have hbetween : (change (pairs.eraseDups.foldl uncountPair l)).descentIn part =
      (change l).descentIn part := by
    funext q
    apply descentIn_congr_entries
    · rw [hentries, hentries, entries_foldl_uncountPair]
    · rw [hactive, hactive, nrActive_foldl_uncountPair]
  have hcount : after.descents part = l.descents part -
      pairs.eraseDups.countP (l.descentIn part) +
        pairs.eraseDups.countP ((change l).descentIn part) := by
    rw [hafter, Incidence.changingPairs, descents_foldl_countPair, hbetween, hdescents,
      descents_foldl_uncountPair]
  -- Among the other pairs there are as many descents as before.
  have hothers (k : Nat) : (List.range k).countP (fun q => after.descentIn part q &&
        q ∉ pairs.eraseDups) =
      (List.range k).countP (fun q => l.descentIn part q && q ∉ pairs.eraseDups) := by
    congr 1
    funext q
    by_cases hq : q ∈ pairs
    · simp [hq]
    · rw [hafterDescent, hpairs part q hq]
  have hbefore := h part
  rw [countDescents_eq (Nat.le_max_left l.size after.size),
    countP_range_eq_add (nodup_eraseDups pairs) (fun q hq => by
      have := lt_size_of_descentIn hq
      omega)] at hbefore
  rw [countDescents_eq (Nat.le_max_right l.size after.size),
    countP_range_eq_add (nodup_eraseDups pairs) (fun q hq => by
      have := lt_size_of_descentIn hq
      omega), hothers, hcount, funext hafterDescent]
  omega

/-! ## All counts -/

theorem countP_modify {α : Type} {xs : Array α} {x : α} (h : xs[i]? = some x) (f : α → α)
    (p : α → Bool) : (xs.modify i f).toList.countP p + (if p x then 1 else 0) =
      xs.toList.countP p + if p (f x) then 1 else 0 := by
  obtain ⟨hi, rfl⟩ := Array.getElem?_eq_some_iff.mp h
  have hi' : i < xs.toList.length := by simpa using hi
  rw [Array.toList_modify, List.modify_eq_take_cons_drop hi']
  conv_rhs => rw [← List.take_append_drop i xs.toList, List.drop_eq_getElem_cons hi']
  simp only [List.countP_append, List.countP_cons, Array.getElem_toList]
  omega

/-- All counts of a list are right. -/
structure Counted (l : Incidence κ) : Prop where
  unlinked : l.nrUnlinked = l.entries.toList.countP (·.link.isNone)
  descents : l.DescentsCounted

theorem counted_empty : (empty : Incidence κ).Counted :=
  ⟨rfl, fun part => by cases part <;> rfl⟩

/-- What the check of a list says. -/
theorem isConsistent_iff : l.isConsistent = true ↔ l.nrActive ≤ l.size ∧
    (∀ e ∈ l.activeEntries, e.link.isSome = true) ∧ (∀ e ∈ l.entries, e.value ≠ 0) ∧
    l.Counted := by
  simp only [isConsistent, Bool.and_eq_true, decide_eq_true_eq, beq_iff_eq, List.all_eq_true,
    Array.all_eq_true_iff_forall_mem, Bool.not_eq_true', Extended.isZero, decide_eq_false_iff_not]
  constructor
  · rintro ⟨⟨⟨⟨⟨hbounded, hunlinked⟩, hactive⟩, hactiveDescents⟩, hrestDescents⟩, hvalues⟩
    refine ⟨hbounded, hactive, hvalues, hunlinked, fun part => ?_⟩
    cases part with
    | active => exact hactiveDescents
    | rest => exact hrestDescents
  · rintro ⟨hbounded, hactive, hvalues, hunlinked, hdescents⟩
    exact ⟨⟨⟨⟨⟨hbounded, hunlinked⟩, hactive⟩, hdescents .active⟩, hdescents .rest⟩, hvalues⟩

/-- Without unlinked entries, all are linked. -/
theorem Counted.isSome_link (h : l.Counted) (hnone : l.nrUnlinked = 0)
    (he : l.entries[position]? = some e) : e.link.isSome = true := by
  rw [h.unlinked, List.countP_eq_zero] at hnone
  have hlink := hnone e (by simpa using Array.mem_of_getElem? he)
  rwa [Bool.not_eq_true, Option.isNone_eq_false_iff] at hlink

theorem Counted.nrUnlinked_eq_zero (h : l.Counted)
    (hlinked : ∀ e ∈ l.entries, e.link.isSome = true) : l.nrUnlinked = 0 := by
  rw [h.unlinked, List.countP_eq_zero]
  intro e he
  rw [Bool.not_eq_true, Option.isNone_eq_false_iff]
  exact hlinked e (Array.mem_toList_iff.mp he)

/-- When as many entries are unlinked as there are, none is linked. -/
theorem Counted.link_eq_none (h : l.Counted) (hall : l.nrUnlinked = l.size)
    (he : l.entries[position]? = some e) : e.link = none := by
  rw [h.unlinked, size, ← Array.length_toList, List.countP_eq_length] at hall
  exact Option.isNone_iff_eq_none.mp (hall e (by simpa using Array.mem_of_getElem? he))

/-- A change of single entries that keeps the partners does not affect descents. -/
theorem DescentsCounted.of_partners (h : l.DescentsCounted)
    (hpartner : ∀ j, (l'.entry? j).map (·.partner) = (l.entry? j).map (·.partner))
    (hsize : l'.size = l.size) (hactive : l'.nrActive = l.nrActive)
    (hdescents : ∀ part, l'.descents part = l.descents part) : l'.DescentsCounted := by
  intro part
  have hsame : l'.descentIn part = l.descentIn part := funext fun q =>
    descentIn_congr (hpartner q) (hpartner (q + 1)) (by rw [partOf, partOf, hactive])
      (by rw [partOf, partOf, hactive])
  rw [hdescents, h part, countDescents_eq (Nat.le_refl _), countDescents_eq (Nat.le_refl _), hsize,
    hsame]

omit [Reference κ] in
theorem map_partner_modify (f : Entry κ → Entry κ) (hf : ∀ e, (f e).partner = e.partner)
    (es : Array (Entry κ)) (i j : Nat) :
    ((es.modify i f)[j]?).map (·.partner) = (es[j]?).map (·.partner) := by
  rw [Array.getElem?_modify]
  split
  · rcases es[j]? with _ | e <;> simp [hf]
  · rfl

theorem counted_setValue (h : l.Counted) (position : Nat) (value : Extended) :
    (l.setValue position value).Counted := by
  constructor
  · rw [setValue]
    rcases he : l.entries[position]? with _ | e
    · rw [h.unlinked, Array.toList_modify, List.modify_eq_self]
      simpa using he
    · have hcount := countP_modify he ({ · with value }) (·.link.isNone)
      rw [h.unlinked]
      exact (Nat.add_right_cancel hcount).symm
  · refine h.descents.of_partners
      (fun j => map_partner_modify ({ · with value }) (fun _ => rfl) _ _ _)
      (size_setValue ..) rfl fun part => ?_
    cases part <;> rfl

theorem counted_setLink (h : l.Counted) (he : l.entries[position]? = some e)
    (link : Option Nat) : (l.setLink position link).Counted := by
  have hlink : l.link? position = e.link := by
    rw [link?, entry?, he, Option.bind_some]
  have hcount := countP_modify he ({ · with link }) (·.link.isNone)
  constructor
  · rw [entries_setLink]
    cases hold : e.link <;> cases link <;>
      simp only [setLink, hlink, hold, h.unlinked, Option.isNone_none, Option.isNone_some,
        Option.isSome_none, Option.isSome_some, if_true, Bool.false_eq_true, if_false] at hcount ⊢ <;>
      omega
  · refine h.descents.of_partners (fun j => ?_) (by simp [size]) (nrActive_setLink ..) fun part => ?_
    · rw [ entry?, entries_setLink]
      exact map_partner_modify ({ · with link }) (fun _ => rfl) _ _ _
    · rw [setLink]
      split <;> cases part <;> rfl

theorem counted_relink (h : l.Counted) (he : l.entries[position]? = some e)
    (hlink : e.link.isSome = true) (link : Nat) : (l.relink position link).Counted := by
  have hcount := countP_modify he ({ · with link := some link }) (·.link.isNone)
  constructor
  · rw [relink, h.unlinked]
    rw [Option.isNone_eq_false_iff.mpr hlink] at hcount
    simpa using hcount.symm
  · refine h.descents.of_partners
      (fun j => map_partner_modify ({ · with link := some link }) (fun _ => rfl) _ _ _)
      (by simp [size, relink]) rfl fun part => ?_
    cases part <;> rfl

theorem mem_pairsAround : j ∈ pairsAround i ↔ j = i ∨ j + 1 = i := by
  cases i with
  | zero => simp [pairsAround]
  | succ i =>
    rw [pairsAround]
    simp only [List.mem_cons, List.not_mem_nil, or_false]
    omega

/-- A change of entries at some positions affects the pairs around these only. -/
theorem descentIn_eq_of_notMem (positions : List Nat) {q : Nat}
    (hentry : ∀ j ∉ positions, l'.entry? j = l.entry? j) (hactive : l'.nrActive = l.nrActive)
    (hq : ∀ p ∈ positions, q ∉ pairsAround p) : l'.descentIn part q = l.descentIn part q := by
  apply descentIn_congr
  · rw [hentry]
    exact fun hmem => hq q hmem (mem_pairsAround.mpr (.inl rfl))
  · rw [hentry]
    exact fun hmem => hq (q + 1) hmem (mem_pairsAround.mpr (.inr rfl))
  · rw [partOf, partOf, hactive]
  · rw [partOf, partOf, hactive]

theorem counted_push (h : l.Counted) (e : Entry κ) : (l.push e).Counted := by
  have hdescents : (l.changingPairs (pairsAround l.size) fun l =>
      { l with entries := l.entries.push e }).DescentsCounted := by
    refine h.descents.changingPairs (f := (·.push e)) (n := id) (fun _ => rfl) (fun _ => rfl)
      (fun l part => by cases part <;> rfl) fun part q hq => ?_
    refine descentIn_eq_of_notMem [l.size] (fun j hj => ?_) rfl (by simpa using hq)
    rw [ entry?, entry?, Array.getElem?_push, if_neg (by simpa [size] using hj)]
  constructor
  · rw [nrUnlinked_push, entries_push, Array.toList_push, List.countP_append, h.unlinked]
    simp [List.countP_cons]
  · intro part
    have hpart := hdescents part
    rw [push]
    split
    · cases part <;> exact hpart
    · exact hpart

theorem counted_setNrActive (h : l.Counted) (n : Nat) : (l.setNrActive n).Counted := by
  refine ⟨by rw [nrUnlinked_setNrActive, entries_setNrActive, h.unlinked], ?_⟩
  refine h.descents.changingPairs (f := id) (n := fun _ => n) (fun _ => rfl) (fun _ => rfl)
    (fun l part => by cases part <;> rfl) fun part q hq => ?_
  -- Only at a pair between the two boundaries, some entry changes its part.
  have hout : q + 1 < min l.nrActive n ∨ max l.nrActive n ≤ q := by
    rw [List.mem_range'_1] at hq
    omega
  refine descentIn_congr rfl rfl ?_ ?_
  · rw [partOf, partOf]
    congr 1
    simp only [eq_iff_iff]
    omega
  · rw [partOf, partOf]
    congr 1
    simp only [eq_iff_iff]
    omega

theorem counted_popUnlinked (h : l.Counted) (he : l.entries[l.size - 1]? = some e)
    (hlink : e.link = none) : l.popUnlinked.Counted := by
  have hsplit : l.entries.toList = l.entries.pop.toList ++ [e] := by
    rw [← Array.toList_push, pop_push he]
  have hdescents : (l.changingPairs (pairsAround (l.size - 1)) fun l =>
      { l with entries := l.entries.pop }).DescentsCounted := by
    refine h.descents.changingPairs (f := Array.pop) (n := id) (fun _ => rfl) (fun _ => rfl)
      (fun l part => by cases part <;> rfl) fun part q hq => ?_
    refine descentIn_eq_of_notMem [l.size - 1] (fun j hj => ?_) rfl
      (by simpa using hq)
    have hj' : j ≠ l.entries.size - 1 := by simpa [size] using hj
    rw [ entry?, entry?, Array.getElem?_pop]
    split
    · rfl
    · rw [Array.getElem?_eq_none (by omega)]
  constructor
  · have hkept : (l.changingPairs (pairsAround (l.size - 1)) fun l =>
        { l with entries := l.entries.pop }).nrUnlinked = l.nrUnlinked :=
      nrUnlinked_changingPairs (f := id) fun _ => rfl
    have hunlinked : l.popUnlinked.nrUnlinked = l.nrUnlinked - 1 := congrArg (· - 1) hkept
    rw [hunlinked, h.unlinked, entries_popUnlinked, hsplit]
    simp [hlink]
  · intro part
    have hpart := hdescents part
    cases part <;> exact hpart

/-! ## Rearrangements -/

theorem counted_swap (h : l.Counted) (ha : i < l.size) (hb : j < l.size) :
    (l.swap i j).1.Counted := by
  refine ⟨by rw [nrUnlinked_swap, (perm_swap ha hb).countP_eq, h.unlinked], ?_⟩
  rw [swap]
  split
  · exact h.descents
  · refine h.descents.changingPairs (f := (·.swapIfInBounds i j)) (n := id) (fun _ => rfl)
      (fun _ => rfl) (fun l part => by cases part <;> rfl) fun part q hq => ?_
    rw [List.mem_append, not_or] at hq
    refine descentIn_eq_of_notMem [i, j] (fun k hk => ?_) rfl (by simpa using hq)
    rw [ entry?, entry?, getElem?_swapIfInBounds ha hb, Equiv.swap_apply_of_ne_of_ne]
    · exact fun heq => hk (by simp [heq])
    · exact fun heq => hk (by simp [heq])

theorem counted_activate (h : l.Counted) (hposition : position < l.size)
    (hactive : l.nrActive < l.size) : (l.activate position).1.Counted := by
  rw [activate]
  exact counted_setNrActive (counted_swap h hposition hactive) _

theorem counted_deactivate (h : l.Counted) (hposition : position < l.size)
    (hactive : l.nrActive - 1 < l.size) : (l.deactivate position).1.Counted := by
  rw [deactivate]
  exact counted_setNrActive (counted_swap h hposition hactive) _

theorem counted_bringToEnd (h : l.Counted) (hactive : l.nrActive ≤ l.size)
    (hposition : position < l.size) : (l.bringToEnd position).1.Counted := by
  rw [bringToEnd]
  dsimp only
  split
  · have hfirst := counted_setNrActive
      (counted_swap h hposition (by omega : l.nrActive - 1 < l.size)) (l.nrActive - 1)
    exact counted_swap hfirst (by simp; omega) (by simp; omega)
  · exact counted_swap h hposition (by omega)

theorem counted_remove (h : l.Counted) (hactive : l.nrActive ≤ l.size)
    (he : l.entries[position]? = some e) : (l.remove position).1.Counted := by
  have hposition : position < l.size := (Array.getElem?_eq_some_iff.mp he).1
  have hposition' : position < (l.setLink position none).size := by rwa [size_setLink]
  have hactive' : (l.setLink position none).nrActive ≤ (l.setLink position none).size := by
    rwa [nrActive_setLink, size_setLink]
  rw [remove_eq hposition]
  apply counted_popUnlinked (e := { e with link := none })
  · exact counted_bringToEnd (counted_setLink h he none) hactive' hposition'
  · rw [size_bringToEnd]
    refine (entry?_bringToEnd hactive' hposition').trans ?_
    rw [entry?_setLink_self, entry?, he, Option.map_some]
  · rfl

/-- A sorted part is in ascending order. -/
theorem index_le_of_sort (hactive : l.nrActive ≤ l.size) (hsorted : l.isSorted part = false)
    {first second : Entry κ} (hi : (l.range part).1 ≤ i) (hj : j < (l.range part).2) (hij : i < j)
    (hfirst : (l.sort part).1.entries[i]? = some first)
    (hsecond : (l.sort part).1.entries[j]? = some second) :
    index first.partner ≤ index second.partner := by
  rw [getElem?_sort hactive hsorted, if_pos (by omega)] at hfirst hsecond
  obtain ⟨a, ha, rfl⟩ := Option.map_eq_some_iff.mp hfirst
  obtain ⟨b, hb, rfl⟩ := Option.map_eq_some_iff.mp hsecond
  obtain ⟨hia, rfl⟩ := List.getElem?_eq_some_iff.mp ha
  obtain ⟨hjb, rfl⟩ := List.getElem?_eq_some_iff.mp hb
  let le (a b : Entry κ × Nat) : Bool := decide (index a.1.partner ≤ index b.1.partner)
  have htrans (a b c : Entry κ × Nat) : le a b = true → le b c = true → le a c = true := by
    simpa [le] using Nat.le_trans
  have htotal (a b : Entry κ × Nat) : (le a b || le b a) = true := by
    simpa [le] using Nat.le_total (index a.1.partner) (index b.1.partner)
  have hpairwise := List.pairwise_mergeSort htrans htotal (l.positioned part)
  exact of_decide_eq_true (List.pairwise_iff_getElem.mp hpairwise _ _ hia hjb (by omega))

theorem counted_sort (h : l.Counted) (hactive : l.nrActive ≤ l.size) (part : Part) :
    (l.sort part).1.Counted := by
  by_cases hsorted : l.isSorted part = true
  · rw [sort, if_pos hsorted]
    exact h
  have hnr := nrActive_sort l part
  have hperm := perm_sort hactive part
  have hsize : (l.sort part).1.size = l.size := by
    simpa [size] using hperm.length_eq
  have hunlinked : (l.sort part).1.nrUnlinked = l.nrUnlinked := by
    rw [sort, if_neg hsorted]
    simp
  have hdescents (other : Part) : (l.sort part).1.descents other =
      if other = part then 0 else l.descents other := by
    rw [sort, if_neg hsorted]
    dsimp only
    by_cases heq : other = part
    · subst heq
      simp
    · rw [descents_modifyDescents_of_ne heq, if_neg heq]
      cases other <;> rfl
  refine ⟨by rw [hunlinked, hperm.countP_eq, h.unlinked], fun other => ?_⟩
  have hrange {q : Nat} {p : Part} (hp : l.partOf q = p) (hq : q < l.size) :
      (l.range p).1 ≤ q ∧ q < (l.range p).2 := by
    rw [partOf] at hp
    split at hp <;> subst hp <;> simp only [range] <;> omega
  have hpart (q : Nat) : (l.sort part).1.partOf q = l.partOf q := by rw [partOf, partOf, hnr]
  rw [hdescents]
  split
  · next heq =>
    subst heq
    rw [countDescents_eq (Nat.le_refl _), eq_comm, List.countP_eq_zero]
    intro q _ hdescent
    have hlt := lt_size_of_descentIn hdescent
    obtain ⟨first, second, hfirst, hsecond, hq, hq', hindex⟩ := descentIn_iff.mp hdescent
    rw [hpart] at hq hq'
    rw [hsize] at hlt
    have hle := index_le_of_sort hactive (Bool.eq_false_iff.mpr hsorted)
      (hrange hq (by omega)).1 (hrange hq' hlt).2 (Nat.lt_succ_self q) hfirst hsecond
    omega
  · next hne =>
    have hentry (q : Nat) (hq : l.partOf q = other) :
        Incidence.entry? (l.sort part).1 q = l.entry? q := by
      rw [ entry?, entry?, getElem?_sort hactive (Bool.eq_false_iff.mpr hsorted), if_neg]
      intro hin
      have hlt := range_snd_le hactive part
      refine hne (hq.symm.trans ?_)
      rw [partOf]
      cases part <;> simp only [range] at hin ⊢
      · rw [if_pos hin.2]
      · rw [if_neg (by omega)]
    rw [h.descents other, countDescents_eq (Nat.le_refl _), countDescents_eq (Nat.le_refl _), hsize]
    congr 1
    funext q
    rw [Bool.eq_iff_iff, descentIn_iff, descentIn_iff, hpart, hpart]
    constructor
    · rintro ⟨first, second, hfirst, hsecond, hq, hq', hindex⟩
      exact ⟨first, second, (hentry q hq).trans hfirst, (hentry _ hq').trans hsecond, hq, hq',
        hindex⟩
    · rintro ⟨first, second, hfirst, hsecond, hq, hq', hindex⟩
      exact ⟨first, second, (hentry q hq).symm.trans hfirst, (hentry _ hq').symm.trans hsecond, hq,
        hq', hindex⟩

end Incidence

end CertifiedLp
