import Mathlib
import CertifiedLp.Incidence.Order

/-!
# Moves of entries

An operation that moves entries returns the moves of which their counterparts have to learn.
`Move.told` is what the link of a counterpart becomes. `Tracked` says of two states of a list that
the moves in between are right: a counterpart that knew the position of an entry before knows its
position afterwards.

Two linked entries of a list never have the same counterpart. This is what `Distinct` says, and it
is why the moves of one entry cannot be mistaken for those of another one.
-/

namespace CertifiedLp

variable {κ : Type}

/-! ## Where entries are -/

theorem getElem?_swapIfInBounds {α : Type} {xs : Array α} {a b : Nat} (ha : a < xs.size)
    (hb : b < xs.size) (j : Nat) : (xs.swapIfInBounds a b)[j]? = xs[Equiv.swap a b j]? := by
  rw [Array.swapIfInBounds_def, dif_pos ha, dif_pos hb, Array.getElem?_swap]
  by_cases hj : b = j
  · subst hj
    simp [ha]
  · by_cases hj' : a = j
    · subst hj'
      simp [hj, hb]
    · rw [if_neg hj, if_neg hj', Equiv.swap_apply_of_ne_of_ne (Ne.symm hj') (Ne.symm hj)]

theorem perm_swapIfInBounds {α : Type} {xs : Array α} {a b : Nat} (ha : a < xs.size)
    (hb : b < xs.size) : (xs.swapIfInBounds a b).toList.Perm xs.toList := by
  rw [Array.swapIfInBounds_def, dif_pos ha, dif_pos hb]
  exact (Array.swap_perm ha hb).toList

namespace Incidence

variable [Reference κ] {l : Incidence κ} {a b position : Nat}

theorem moves_swap (h : a ≠ b) :
    (l.swap a b).2 = [a, b].filterMap (l.swap a b).1.moveTo? := by
  rw [swap, if_neg h]

@[simp] theorem entries_activate (l : Incidence κ) (position : Nat) :
    (l.activate position).1.entries = l.entries.swapIfInBounds position l.nrActive := by
  simp [activate]

@[simp] theorem entries_deactivate (l : Incidence κ) (position : Nat) :
    (l.deactivate position).1.entries =
      l.entries.swapIfInBounds position (l.nrActive - 1) := by
  simp [deactivate]

@[simp] theorem nrActive_popUnlinked (l : Incidence κ) : l.popUnlinked.nrActive = l.nrActive := by
  exact nrActive_changingPairs (f := id) fun _ => rfl

@[simp] theorem size_popUnlinked (l : Incidence κ) : l.popUnlinked.size = l.size - 1 := by
  simp [size]

theorem size_remove (hposition : position < l.size) :
    (l.remove position).1.size = l.size - 1 := by
  rw [remove_eq hposition, size_popUnlinked, size_bringToEnd, size_setLink]

theorem nrActive_remove (hposition : position < l.size) :
    (l.remove position).1.nrActive =
      if position < l.nrActive then l.nrActive - 1 else l.nrActive := by
  rw [remove_eq hposition, nrActive_popUnlinked, nrActive_bringToEnd, nrActive_setLink]

omit [Reference κ] in
theorem entry?_setLink_self (l : Incidence κ) (position : Nat) (link : Option Nat) :
    Incidence.entry? (l.setLink position link) position =
      (l.entry? position).map ({ · with link }) := by
  rw [ entry?, entries_setLink, Array.getElem?_modify, if_pos rfl]
  rfl

theorem entry?_setNrActive (l : Incidence κ) (n position : Nat) :
    Incidence.entry? (l.setNrActive n) position = l.entry? position := by
  rw [ entry?, entry?, entries_setNrActive]

theorem entry?_swap_right (ha : a < l.size) (hb : b < l.size) :
    Incidence.entry? (l.swap a b).1 b = l.entry? a := by
  rw [ entry?, entries_swap, getElem?_swapIfInBounds ha hb, Equiv.swap_apply_right]
  rfl

theorem entry?_bringToEnd (hactive : l.nrActive ≤ l.size) (hposition : position < l.size) :
    Incidence.entry? (l.bringToEnd position).1 (l.size - 1) = l.entry? position := by
  rw [bringToEnd]
  dsimp only
  split
  · have hlast : l.nrActive - 1 < l.size := by omega
    rw [entry?_swap_right (by simpa using hlast) (by simp; omega), entry?_setNrActive,
      entry?_swap_right hposition hlast]
  · exact entry?_swap_right hposition (by omega)

theorem perm_swap (ha : a < l.size) (hb : b < l.size) :
    (l.swap a b).1.entries.toList.Perm l.entries.toList := by
  rw [entries_swap]
  exact perm_swapIfInBounds ha hb

theorem perm_bringToEnd (hactive : l.nrActive ≤ l.size) (hposition : position < l.size) :
    (l.bringToEnd position).1.entries.toList.Perm l.entries.toList := by
  rw [bringToEnd]
  dsimp only
  split
  · refine (perm_swap (by simp; omega) (by simp; omega)).trans ?_
    rw [entries_setNrActive]
    exact perm_swap hposition (by omega)
  · exact perm_swap hposition (by omega)

end Incidence

/-! ## Learning the moves -/

variable [DecidableEq κ]

/-- The link of the entry at a position of a line, after the line was told the moves. -/
def Move.told (moves : List (Move κ)) (line : κ) (position : Nat) (link : Option Nat) :
    Option Nat :=
  moves.foldl (fun link move =>
    if move.partner = line ∧ move.counterpart = position then some move.position else link) link

namespace Move

@[simp] theorem told_nil (line : κ) (position : Nat) (link : Option Nat) :
    told [] line position link = link := rfl

theorem told_append (moves moves' : List (Move κ)) (line : κ) (position : Nat)
    (link : Option Nat) : told (moves ++ moves') line position link =
      told moves' line position (told moves line position link) := by
  rw [told, told, told, List.foldl_append]

theorem told_cons (move : Move κ) (moves : List (Move κ)) (line : κ) (position : Nat)
    (link : Option Nat) : told (move :: moves) line position link =
      told moves line position
        (if move.partner = line ∧ move.counterpart = position then some move.position else link) :=
  rfl

/-- Moves of other entries do not matter. -/
theorem told_of_forall_ne {moves : List (Move κ)} {line : κ} {position : Nat}
    (h : ∀ move ∈ moves, ¬ (move.partner = line ∧ move.counterpart = position))
    (link : Option Nat) : told moves line position link = link := by
  induction moves generalizing link with
  | nil => rfl
  | cons move moves ih =>
    rw [told_cons, if_neg (h move (by simp))]
    exact ih (fun other hother => h other (by simp [hother])) link

/-- If all moves of an entry are to the same position, then that is where it is. -/
theorem told_eq {moves : List (Move κ)} {line : κ} {position target : Nat} {link : Option Nat}
    (hall : ∀ move ∈ moves, move.partner = line → move.counterpart = position →
      move.position = target)
    (hsome : link = some target ∨
      ∃ move ∈ moves, move.partner = line ∧ move.counterpart = position) :
    told moves line position link = some target := by
  induction moves generalizing link with
  | nil =>
    rcases hsome with rfl | ⟨move, hmem, -⟩
    · rfl
    · cases hmem
  | cons move moves ih =>
    rw [told_cons]
    apply ih
    · exact fun other hother => hall other (by simp [hother])
    · by_cases h : move.partner = line ∧ move.counterpart = position
      · left
        rw [if_pos h, hall move (by simp) h.1 h.2]
      · rw [if_neg h]
        rcases hsome with hlink | ⟨other, hmem, hother⟩
        · exact .inl hlink
        · rcases List.mem_cons.mp hmem with rfl | hmem
          · exact absurd hother h
          · exact .inr ⟨other, hmem, hother⟩

end Move

/-- Linked entries have different counterparts. -/
def Distinct {κ : Type} (es : Array (Entry κ)) : Prop :=
  ∀ {i j : Nat} {e e' : Entry κ}, es[i]? = some e → es[j]? = some e' → e.partner = e'.partner →
    e.link.isSome = true → e.link = e'.link → i = j

/-- Taking a link does no harm. -/
theorem Distinct.setLink_none {κ : Type} {l : Incidence κ} (hdistinct : Distinct l.entries)
    (position : Nat) : Distinct (l.setLink position none).entries := by
  intro i j e e' hi hj hpartner hsome hlink
  rw [Incidence.entries_setLink, Array.getElem?_modify] at hi hj
  split at hi <;> split at hj
  · omega
  · obtain ⟨_, -, rfl⟩ := Option.map_eq_some_iff.mp hi
    cases hsome
  · obtain ⟨_, -, rfl⟩ := Option.map_eq_some_iff.mp hj
    simp [hlink] at hsome
  · exact hdistinct hi hj hpartner hsome hlink

/-- One list is a rearrangement of another one, in which the entry at position `i` goes to position
`f i`, and the moves say so. -/
structure Tracked (f : Nat → Nat) (es es' : Array (Entry κ)) (moves : List (Move κ)) : Prop where
  forth : ∀ {i : Nat} {e : Entry κ}, es[i]? = some e → es'[f i]? = some e
  back : ∀ {j : Nat} {e : Entry κ}, es'[j]? = some e → ∃ i, f i = j ∧ es[i]? = some e
  told : ∀ {i : Nat} {e : Entry κ} {k : Nat}, es[i]? = some e → e.link = some k →
    Move.told moves e.partner k (some i) = some (f i)
  truthful : ∀ {move}, move ∈ moves → ∃ (i : Nat) (e : Entry κ), es[i]? = some e ∧
    e.partner = move.partner ∧ e.link = some move.counterpart

namespace Tracked

variable {f g : Nat → Nat} {es es' es'' : Array (Entry κ)} {moves moves' : List (Move κ)}

theorem refl (es : Array (Entry κ)) : Tracked id es es [] where
  forth he := he
  back he := ⟨_, rfl, he⟩
  told _ _ := rfl
  truthful h := by cases h

theorem trans (h : Tracked f es es' moves) (h' : Tracked g es' es'' moves') :
    Tracked (g ∘ f) es es'' (moves ++ moves') where
  forth he := h'.forth (h.forth he)
  back he := by
    obtain ⟨j, rfl, hj⟩ := h'.back he
    obtain ⟨i, rfl, hi⟩ := h.back hj
    exact ⟨i, rfl, hi⟩
  told he hk := by rw [Move.told_append, h.told he hk, h'.told (h.forth he) hk, Function.comp]
  truthful hmove := by
    rcases List.mem_append.mp hmove with hmove | hmove
    · exact h.truthful hmove
    · obtain ⟨j, e, he, hpartner, hlink⟩ := h'.truthful hmove
      obtain ⟨i, -, hi⟩ := h.back he
      exact ⟨i, e, hi, hpartner, hlink⟩

theorem distinct (h : Tracked f es es' moves) (hdistinct : Distinct es) : Distinct es' := by
  intro j j' e e' he he' hpartner hsome hlink
  obtain ⟨i, rfl, hi⟩ := h.back he
  obtain ⟨i', rfl, hi'⟩ := h.back he'
  rw [hdistinct hi hi' hpartner hsome hlink]

/-- Moves track a rearrangement if there is one for every linked entry that goes to another
position. -/
theorem of_moves (hdistinct : Distinct es)
    (hforth : ∀ {i : Nat} {e : Entry κ}, es[i]? = some e → es'[f i]? = some e)
    (hback : ∀ {j : Nat} {e : Entry κ}, es'[j]? = some e → ∃ i, f i = j ∧ es[i]? = some e)
    (hmoves : ∀ {move}, move ∈ moves → ∃ (i : Nat) (e : Entry κ), es[i]? = some e ∧
      e.partner = move.partner ∧ e.link = some move.counterpart ∧ move.position = f i)
    (hmoved : ∀ {i : Nat} {e : Entry κ} {k : Nat}, es[i]? = some e → e.link = some k → f i ≠ i →
      ⟨e.partner, k, f i⟩ ∈ moves) : Tracked f es es' moves := by
  refine ⟨hforth, hback, ?_, ?_⟩
  · intro i e k he hk
    apply Move.told_eq
    · intro move hmem hpartner hcounterpart
      obtain ⟨i', e', he', hpartner', hlink', hposition⟩ := hmoves hmem
      have hi : i = i' := hdistinct he he' (hpartner.symm.trans hpartner'.symm) (by simp [hk])
        (by rw [hk, hlink', hcounterpart])
      rw [hposition, hi]
    · by_cases hi : f i = i
      · exact .inl (by rw [hi])
      · exact .inr ⟨_, hmoved he hk hi, rfl, rfl⟩
  · intro move hmem
    obtain ⟨i, e, he, hpartner, hlink, -⟩ := hmoves hmem
    exact ⟨i, e, he, hpartner, hlink⟩

end Tracked

/-! ## Exchanging two entries -/

namespace Incidence

variable [Reference κ] {l : Incidence κ} {a b position : Nat}

theorem tracked_swap (hdistinct : Distinct l.entries) (ha : a < l.size) (hb : b < l.size) :
    Tracked (Equiv.swap a b) l.entries (l.swap a b).1.entries (l.swap a b).2 := by
  have hget (j : Nat) : (l.swap a b).1.entries[j]? = l.entries[Equiv.swap a b j]? := by
    rw [entries_swap, getElem?_swapIfInBounds ha hb]
  by_cases hab : a = b
  · subst hab
    have hmoves : (l.swap a a).2 = [] := by rw [swap, if_pos rfl]
    refine .of_moves hdistinct ?_ ?_ ?_ ?_
    · intro i e he
      rw [hget]
      simpa using he
    · intro j e he
      rw [hget] at he
      exact ⟨j, by simp, by simpa using he⟩
    · simp [hmoves]
    · simp
  · refine .of_moves hdistinct ?_ ?_ ?_ ?_
    · intro i e he
      rw [hget, Equiv.swap_apply_self, he]
    · intro j e he
      exact ⟨Equiv.swap a b j, Equiv.swap_apply_self a b j, by rw [← hget, he]⟩
    · intro move hmem
      rw [moves_swap hab, List.mem_filterMap] at hmem
      obtain ⟨q, -, hq⟩ := hmem
      obtain ⟨e, he, hmove⟩ := Option.bind_eq_some_iff.mp hq
      obtain ⟨k, hk, rfl⟩ := Option.map_eq_some_iff.mp hmove
      exact ⟨Equiv.swap a b q, e, by rw [← hget]; exact he, rfl, hk, by simp⟩
    · intro i e k he hk hmoved
      have hmem : Equiv.swap a b i ∈ [a, b] := by
        by_cases hia : i = a
        · simp [hia]
        · by_cases hib : i = b
          · simp [hib]
          · exact absurd (Equiv.swap_apply_of_ne_of_ne hia hib) hmoved
      rw [moves_swap hab, List.mem_filterMap]
      refine ⟨_, hmem, ?_⟩
      have he' : Incidence.entry? (l.swap a b).1 (Equiv.swap a b i) = some e := by
        change (l.swap a b).1.entries[Equiv.swap a b i]? = some e
        rw [hget, Equiv.swap_apply_self, he]
      simp [moveTo?, he', hk]

/-! ## Crossing the boundary of the parts -/

theorem tracked_activate (hdistinct : Distinct l.entries) (hposition : position < l.size)
    (hactive : l.nrActive < l.size) :
    Tracked (Equiv.swap position l.nrActive) l.entries (l.activate position).1.entries
      (l.activate position).2 := by
  have h := tracked_swap hdistinct hposition hactive
  rwa [entries_swap, ← entries_activate] at h

theorem tracked_deactivate (hdistinct : Distinct l.entries) (hposition : position < l.size)
    (hactive : l.nrActive - 1 < l.size) :
    Tracked (Equiv.swap position (l.nrActive - 1)) l.entries (l.deactivate position).1.entries
      (l.deactivate position).2 := by
  have h := tracked_swap hdistinct hposition hactive
  rwa [entries_swap, ← entries_deactivate] at h

/-! ## Removing -/

theorem pop_push {α : Type} {xs : Array α} {x : α} (h : xs[xs.size - 1]? = some x) :
    xs.pop.push x = xs := by
  have hsize : xs.size ≠ 0 := by
    have := (Array.getElem?_eq_some_iff.mp h).1
    omega
  obtain ⟨ys, y, rfl⟩ := Array.eq_push_of_size_ne_zero hsize
  simp at h
  simp [h]

/-- An entry is brought to the end of the list. All others stay in their parts, and in the rest those
before it stay where they are. -/
theorem tracked_bringToEnd (hdistinct : Distinct l.entries) (hactive : l.nrActive ≤ l.size)
    (hposition : position < l.size) :
    ∃ f, Tracked f l.entries (l.bringToEnd position).1.entries (l.bringToEnd position).2 ∧
      f position = l.size - 1 ∧
      (∀ i, i < l.size → i ≠ position →
        (f i < (l.bringToEnd position).1.nrActive ↔ i < l.nrActive)) ∧
      (l.nrActive ≤ position → ∀ i, i < position → f i = i) := by
  rw [nrActive_bringToEnd, bringToEnd]
  by_cases hpart : position < l.nrActive
  · simp only [if_pos hpart]
    have hfirst := tracked_swap hdistinct hposition (by omega : l.nrActive - 1 < l.size)
    have hsecond : Tracked (Equiv.swap (l.nrActive - 1) (l.size - 1)) _ _ _ :=
      tracked_swap (l := (l.swap position (l.nrActive - 1)).1.setNrActive (l.nrActive - 1))
        (by rw [entries_setNrActive]; exact hfirst.distinct hdistinct) (by simp; omega)
        (by simp; omega)
    rw [entries_setNrActive] at hsecond
    refine ⟨_, hfirst.trans hsecond, by simp, ?_, fun hrest => absurd hpart (by omega)⟩
    intro i hi hne
    rw [Function.comp, Equiv.swap_apply_def, Equiv.swap_apply_def]
    split_ifs <;> omega
  · simp only [if_neg hpart]
    refine ⟨_, tracked_swap hdistinct hposition (by omega), Equiv.swap_apply_left _ _, ?_,
      fun _ i hi => Equiv.swap_apply_of_ne_of_ne (by omega) (by omega)⟩
    intro i hi hne
    rw [Equiv.swap_apply_def]
    split_ifs <;> omega

/-- Removing an entry takes its link, brings it to the end of the list and drops it there. All other
entries stay in their parts, and in the rest those before it stay where they are. -/
theorem tracked_remove {e : Entry κ} (hdistinct : Distinct l.entries)
    (hactive : l.nrActive ≤ l.size) (he : l.entries[position]? = some e) :
    ∃ f, Tracked f (l.setLink position none).entries
        ((l.remove position).1.entries.push { e with link := none }) (l.remove position).2 ∧
      ((l.remove position).1.entries.push { e with link := none }).toList.Perm
        (l.setLink position none).entries.toList ∧
      f position = (l.remove position).1.size ∧
      (∀ i, i < l.size → i ≠ position →
        (f i < (l.remove position).1.nrActive ↔ i < l.nrActive)) ∧
      (l.nrActive ≤ position → ∀ i, i < position → f i = i) := by
  have hposition : position < l.size := (Array.getElem?_eq_some_iff.mp he).1
  rw [size_remove hposition, remove_eq hposition, nrActive_popUnlinked]
  obtain ⟨cut, hcut⟩ : ∃ cut, cut = l.setLink position none := ⟨_, rfl⟩
  have hsize : cut.size = l.size := by rw [hcut, size_setLink]
  have hnr : cut.nrActive = l.nrActive := by rw [hcut, nrActive_setLink]
  have hremoved : cut.entry? position = some { e with link := none } := by
    rw [hcut, entry?_setLink_self, entry?, he, Option.map_some]
  have hdistinct' : Distinct cut.entries := hcut ▸ hdistinct.setLink_none position
  rw [← hcut, ← hsize, ← hnr]
  rw [← hsize] at hposition
  rw [← hsize, ← hnr] at hactive
  have hpush : (cut.bringToEnd position).1.popUnlinked.entries.push { e with link := none } =
      (cut.bringToEnd position).1.entries := by
    rw [entries_popUnlinked]
    apply pop_push
    have hlast := (entry?_bringToEnd hactive hposition).trans hremoved
    rwa [← size_bringToEnd cut position] at hlast
  rw [hpush]
  obtain ⟨f, htracked, hend, hparts, hfixed⟩ := tracked_bringToEnd hdistinct' hactive hposition
  exact ⟨f, htracked, perm_bringToEnd hactive hposition, hend, hparts, hfixed⟩

end Incidence

end CertifiedLp
