import CertifiedLp.Extended.Basic
import CertifiedLp.Reference

/-!
# Incidence lists

The nonzero coefficients of one line of a matrix, a column or a row. An entry names the line that
crosses this one, its *partner*. It is *linked* when the partner has an entry for the same
coefficient; the link is the position of that entry in the partner's list.

The entries are in two parts. The first `nrActive` entries are linked to partners in the active
linear program, and the rest is everything else. Each part can be sorted by partner on its own.

How many neighbours within a part are out of order is counted all the time. A change touches a few
pairs of neighbours, so the counts are corrected at these pairs only: a part is sorted exactly when
its count is zero.

Moving a linked entry changes the position that its partner has to know. The operations return
these changes as a list of `Move`s, to be applied on the other side in order.
-/

namespace CertifiedLp

open Reference (index)

/-- A coefficient in the list of one of its two lines. -/
structure Entry (κ : Type) where
  /-- The line that crosses this one. -/
  partner : κ
  /-- The coefficient. -/
  value : Extended
  /-- The position of the same coefficient in the list of the partner. -/
  link : Option Nat
  deriving DecidableEq

/-- The counterpart of an entry has to learn that the entry is at another position now. -/
structure Move (κ : Type) where
  /-- The line of the counterpart. -/
  partner : κ
  /-- The position of the counterpart in the list of its line. -/
  counterpart : Nat
  /-- The new position of the entry. -/
  position : Nat
  deriving DecidableEq

/-- The two parts of an incidence list. -/
inductive Part where
  /-- Entries linked to a partner in the active linear program. -/
  | active
  /-- All other entries. -/
  | rest
  deriving DecidableEq

/-- The nonzero coefficients of a line. -/
structure Incidence (κ : Type) where
  /-- The entries, the active part first. -/
  entries : Array (Entry κ)
  /-- The size of the active part. -/
  nrActive : Nat
  /-- The number of entries without a link. -/
  nrUnlinked : Nat
  /-- The number of neighbours out of order in the active part. -/
  activeDescents : Nat
  /-- The number of neighbours out of order in the rest. -/
  restDescents : Nat
  deriving DecidableEq

namespace Incidence

variable {κ : Type}

/-- The list without entries. -/
def empty : Incidence κ := ⟨#[], 0, 0, 0, 0⟩

instance : Inhabited (Incidence κ) := ⟨empty⟩

/-- The number of entries. -/
def size (l : Incidence κ) : Nat := l.entries.size

@[simp] theorem size_empty : (empty : Incidence κ).size = 0 := rfl

/-- The entry at a position. -/
def entry? (l : Incidence κ) (position : Nat) : Option (Entry κ) := l.entries[position]?

/-- Where the counterpart of the entry at a position is, if it has one. -/
def link? (l : Incidence κ) (position : Nat) : Option Nat := (l.entry? position).bind (·.link)

/-- The coefficient at a position. -/
def valueAt (l : Incidence κ) (position : Nat) : Extended :=
  ((l.entry? position).map (·.value)).getD 0

/-- The part that a position belongs to. -/
def partOf (l : Incidence κ) (position : Nat) : Part :=
  if position < l.nrActive then .active else .rest

/-- Where a part starts and ends. -/
def range (l : Incidence κ) : Part → Nat × Nat
  | .active => (0, l.nrActive)
  | .rest => (l.nrActive, l.size)

/-- The entries of the active part. -/
def activeEntries (l : Incidence κ) : List (Entry κ) := (l.entries.extract 0 l.nrActive).toList

/-- How many neighbours in a part are out of order. -/
def descents (l : Incidence κ) : Part → Nat
  | .active => l.activeDescents
  | .rest => l.restDescents

/-- Whether a part is in ascending order of the partners. -/
def isSorted (l : Incidence κ) (part : Part) : Bool := l.descents part == 0

/-- Correct the count of a part. -/
def modifyDescents (l : Incidence κ) (part : Part) (f : Nat → Nat) : Incidence κ :=
  match part with
  | .active => { l with activeDescents := f l.activeDescents }
  | .rest => { l with restDescents := f l.restDescents }

@[simp] theorem entries_modifyDescents (l : Incidence κ) (part : Part) (f : Nat → Nat) :
    (l.modifyDescents part f).entries = l.entries := by cases part <;> rfl

@[simp] theorem nrActive_modifyDescents (l : Incidence κ) (part : Part) (f : Nat → Nat) :
    (l.modifyDescents part f).nrActive = l.nrActive := by cases part <;> rfl

@[simp] theorem nrUnlinked_modifyDescents (l : Incidence κ) (part : Part) (f : Nat → Nat) :
    (l.modifyDescents part f).nrUnlinked = l.nrUnlinked := by cases part <;> rfl

@[simp] theorem descents_modifyDescents (l : Incidence κ) (part : Part) (f : Nat → Nat) :
    (l.modifyDescents part f).descents part = f (l.descents part) := by cases part <;> rfl

/-- Tell the counterpart of the entry at a position where the entry is. -/
def moveTo? (l : Incidence κ) (position : Nat) : Option (Move κ) :=
  (l.entry? position).bind fun e => e.link.map fun counterpart => ⟨e.partner, counterpart, position⟩

/-! ## Changing single entries -/

/-- Replace the coefficient at a position. -/
def setValue (l : Incidence κ) (position : Nat) (value : Extended) : Incidence κ :=
  { l with entries := l.entries.modify position ({ · with value }) }

@[simp] theorem size_setValue (l : Incidence κ) (position : Nat) (value : Extended) :
    (l.setValue position value).size = l.size := by
  simp [setValue, size]

/-- Link the entry at a position to its counterpart, or drop its link. -/
def setLink (l : Incidence κ) (position : Nat) (link : Option Nat) : Incidence κ :=
  let entries := l.entries.modify position ({ · with link })
  match (l.link? position).isSome, link.isSome with
  | false, true => { l with entries, nrUnlinked := l.nrUnlinked - 1 }
  | true, false => { l with entries, nrUnlinked := l.nrUnlinked + 1 }
  | _, _ => { l with entries }

@[simp] theorem entries_setLink (l : Incidence κ) (position : Nat) (link : Option Nat) :
    (l.setLink position link).entries = l.entries.modify position ({ · with link }) := by
  unfold setLink
  split <;> rfl

@[simp] theorem nrActive_setLink (l : Incidence κ) (position : Nat) (link : Option Nat) :
    (l.setLink position link).nrActive = l.nrActive := by
  unfold setLink
  split <;> rfl

@[simp] theorem size_setLink (l : Incidence κ) (position : Nat) (link : Option Nat) :
    (l.setLink position link).size = l.size := by
  simp [size]

/-- Learn that the counterpart of a linked entry moved. -/
def relink (l : Incidence κ) (position link : Nat) : Incidence κ :=
  { l with entries := l.entries.modify position ({ · with link := some link }) }

/-! ## Keeping the counts -/

variable [Reference κ]

/-- Whether a position and the next one are in the same part and out of order. -/
def isDescent (l : Incidence κ) (position : Nat) : Bool :=
  match l.entry? position, l.entry? (position + 1) with
  | some first, some second =>
    l.partOf position == l.partOf (position + 1) && index second.partner < index first.partner
  | _, _ => false

/-- Take a pair of neighbours out of the count. -/
def uncountPair (l : Incidence κ) (position : Nat) : Incidence κ :=
  if l.isDescent position then l.modifyDescents (l.partOf position) (· - 1) else l

/-- Count a pair of neighbours. -/
def countPair (l : Incidence κ) (position : Nat) : Incidence κ :=
  if l.isDescent position then l.modifyDescents (l.partOf position) (· + 1) else l

/-- Make a change that affects the given pairs of neighbours, each named by its first position, and
no others. -/
def changingPairs (l : Incidence κ) (pairs : List Nat) (change : Incidence κ → Incidence κ) :
    Incidence κ :=
  let pairs := pairs.eraseDups
  pairs.foldl countPair (change (pairs.foldl uncountPair l))

/-- Counting does not interfere with the change. What does not depend on the counts is afterwards
what the change alone makes of it. -/
theorem view_changingPairs {α : Type} {view : Incidence κ → α} {f : α → α} {l : Incidence κ}
    {pairs : List Nat} {change : Incidence κ → Incidence κ}
    (hview : ∀ l part g, view (modifyDescents l part g) = view l)
    (hchange : ∀ l, view (change l) = f (view l)) :
    view (l.changingPairs pairs change) = f (view l) := by
  have keeps {step : Incidence κ → Nat → Incidence κ}
      (hstep : ∀ l position, view (step l position) = view l) (pairs : List Nat)
      (l : Incidence κ) : view (pairs.foldl step l) = view l := by
    induction pairs generalizing l with
    | nil => rfl
    | cons pair pairs ih => rw [List.foldl_cons, ih, hstep]
  have uncount (l : Incidence κ) (position : Nat) : view (l.uncountPair position) = view l := by
    unfold uncountPair
    split
    · exact hview l _ _
    · rfl
  have count (l : Incidence κ) (position : Nat) : view (l.countPair position) = view l := by
    unfold countPair
    split
    · exact hview l _ _
    · rfl
  rw [changingPairs, keeps count, hchange, keeps uncount]

theorem entries_changingPairs {l : Incidence κ} {pairs : List Nat}
    {change : Incidence κ → Incidence κ} {f : Array (Entry κ) → Array (Entry κ)}
    (h : ∀ l, (change l).entries = f l.entries) :
    (l.changingPairs pairs change).entries = f l.entries :=
  view_changingPairs entries_modifyDescents h

theorem nrActive_changingPairs {l : Incidence κ} {pairs : List Nat}
    {change : Incidence κ → Incidence κ} {f : Nat → Nat}
    (h : ∀ l, (change l).nrActive = f l.nrActive) :
    (l.changingPairs pairs change).nrActive = f l.nrActive :=
  view_changingPairs nrActive_modifyDescents h

theorem nrUnlinked_changingPairs {l : Incidence κ} {pairs : List Nat}
    {change : Incidence κ → Incidence κ} {f : Nat → Nat}
    (h : ∀ l, (change l).nrUnlinked = f l.nrUnlinked) :
    (l.changingPairs pairs change).nrUnlinked = f l.nrUnlinked :=
  view_changingPairs nrUnlinked_modifyDescents h

/-- The pairs of neighbours that a position belongs to. -/
def pairsAround : Nat → List Nat
  | 0 => [0]
  | position + 1 => [position, position + 1]

/-! ## Changes -/

/-- Append an entry to the rest. -/
def push (l : Incidence κ) (entry : Entry κ) : Incidence κ :=
  let l := l.changingPairs (pairsAround l.size) fun l => { l with entries := l.entries.push entry }
  if entry.link.isNone then { l with nrUnlinked := l.nrUnlinked + 1 } else l

@[simp] theorem entries_push (l : Incidence κ) (entry : Entry κ) :
    (l.push entry).entries = l.entries.push entry := by
  unfold push
  split <;> exact entries_changingPairs (f := (·.push entry)) fun _ => rfl

@[simp] theorem size_push (l : Incidence κ) (entry : Entry κ) :
    (l.push entry).size = l.size + 1 := by
  simp [size]

@[simp] theorem nrActive_push (l : Incidence κ) (entry : Entry κ) :
    (l.push entry).nrActive = l.nrActive := by
  unfold push
  split <;> exact nrActive_changingPairs (f := id) fun _ => rfl

theorem nrUnlinked_push (l : Incidence κ) (entry : Entry κ) :
    (l.push entry).nrUnlinked = l.nrUnlinked + if entry.link.isNone then 1 else 0 := by
  have h : (l.changingPairs (pairsAround l.size) fun l =>
      { l with entries := l.entries.push entry }).nrUnlinked = l.nrUnlinked :=
    nrUnlinked_changingPairs (f := id) fun _ => rfl
  unfold push
  split <;> simp [*]

/-- Exchange two entries. -/
def swap (l : Incidence κ) (first second : Nat) : Incidence κ × List (Move κ) :=
  if first = second then (l, [])
  else
    let l := l.changingPairs (pairsAround first ++ pairsAround second) fun l =>
      { l with entries := l.entries.swapIfInBounds first second }
    (l, [first, second].filterMap l.moveTo?)

@[simp] theorem entries_swap (l : Incidence κ) (first second : Nat) :
    (l.swap first second).1.entries = l.entries.swapIfInBounds first second := by
  unfold swap
  split
  · next h =>
    subst h
    rw [Array.swapIfInBounds_def]
    split
    · apply Array.ext
      · simp
      · intro i _ _
        by_cases hi : i = first <;> simp [hi]
    · rfl
  · exact entries_changingPairs (f := (·.swapIfInBounds first second)) fun _ => rfl

@[simp] theorem size_swap (l : Incidence κ) (first second : Nat) :
    (l.swap first second).1.size = l.size := by
  simp [size]

@[simp] theorem nrActive_swap (l : Incidence κ) (first second : Nat) :
    (l.swap first second).1.nrActive = l.nrActive := by
  unfold swap
  split
  · rfl
  · exact nrActive_changingPairs (f := id) fun _ => rfl

@[simp] theorem nrUnlinked_swap (l : Incidence κ) (first second : Nat) :
    (l.swap first second).1.nrUnlinked = l.nrUnlinked := by
  unfold swap
  split
  · rfl
  · exact nrUnlinked_changingPairs (f := id) fun _ => rfl

/-- Move the boundary between the two parts. -/
def setNrActive (l : Incidence κ) (n : Nat) : Incidence κ :=
  let low := min l.nrActive n - 1
  let high := max l.nrActive n
  l.changingPairs (List.range' low (high + 1 - low)) fun l => { l with nrActive := n }

@[simp] theorem entries_setNrActive (l : Incidence κ) (n : Nat) :
    (l.setNrActive n).entries = l.entries :=
  entries_changingPairs (f := id) fun _ => rfl

@[simp] theorem size_setNrActive (l : Incidence κ) (n : Nat) : (l.setNrActive n).size = l.size := by
  simp [size]

@[simp] theorem nrActive_setNrActive (l : Incidence κ) (n : Nat) :
    (l.setNrActive n).nrActive = n :=
  nrActive_changingPairs (f := fun _ => n) fun _ => rfl

@[simp] theorem nrUnlinked_setNrActive (l : Incidence κ) (n : Nat) :
    (l.setNrActive n).nrUnlinked = l.nrUnlinked :=
  nrUnlinked_changingPairs (f := id) fun _ => rfl

/-- Remove the last entry, which has no link. -/
def popUnlinked (l : Incidence κ) : Incidence κ :=
  let l := l.changingPairs (pairsAround (l.size - 1)) fun l => { l with entries := l.entries.pop }
  { l with nrUnlinked := l.nrUnlinked - 1 }

@[simp] theorem entries_popUnlinked (l : Incidence κ) : l.popUnlinked.entries = l.entries.pop :=
  entries_changingPairs (f := Array.pop) fun _ => rfl

/-- Remove the entry at a position. The last entry of the same part takes its place; where that was
the active part, the last entry of all takes the place of that one. The entry loses its link first,
so that no move refers to it. -/
def remove (l : Incidence κ) (position : Nat) : Incidence κ × List (Move κ) :=
  let l := l.setLink position none
  let last := l.size - 1
  if l.size ≤ position then (l, [])
  else if position < l.nrActive then
    let lastActive := l.nrActive - 1
    let (l, moves) := l.swap position lastActive
    let (l, moves') := (l.setNrActive lastActive).swap lastActive last
    (l.popUnlinked, moves ++ moves')
  else
    let (l, moves) := l.swap position last
    (l.popUnlinked, moves)

/-- Bring the entry at a position to the end of the list. The last entry of the same part takes its
place; where that was the active part, which gets shorter by one, the last entry of all takes the
place of that one. -/
def bringToEnd (l : Incidence κ) (position : Nat) : Incidence κ × List (Move κ) :=
  let last := l.size - 1
  if position < l.nrActive then
    let lastActive := l.nrActive - 1
    let (l, moves) := l.swap position lastActive
    let (l, moves') := (l.setNrActive lastActive).swap lastActive last
    (l, moves ++ moves')
  else l.swap position last

@[simp] theorem size_bringToEnd (l : Incidence κ) (position : Nat) :
    (l.bringToEnd position).1.size = l.size := by
  rw [bringToEnd]
  split <;> simp

theorem nrActive_bringToEnd (l : Incidence κ) (position : Nat) :
    (l.bringToEnd position).1.nrActive =
      if position < l.nrActive then l.nrActive - 1 else l.nrActive := by
  rw [bringToEnd]
  split <;> simp

/-- Removing an entry brings it to the end, without its link, and drops it there. -/
theorem remove_eq {l : Incidence κ} {position : Nat} (h : position < l.size) :
    l.remove position = (((l.setLink position none).bringToEnd position).1.popUnlinked,
      ((l.setLink position none).bringToEnd position).2) := by
  rw [remove, bringToEnd, size_setLink, if_neg (by omega)]
  split <;> rfl

/-- The entry that is removed from a position: what is dropped at the end, with the link that it had
before. -/
def removed? (l : Incidence κ) (position : Nat) : Option (Entry κ) :=
  if l.size ≤ position then none
  else
    let brought := ((l.setLink position none).bringToEnd position).1
    (brought.entry? (brought.size - 1)).map ({ · with link := l.link? position })

/-- Move the entry at a position to the end of the active part. -/
def activate (l : Incidence κ) (position : Nat) : Incidence κ × List (Move κ) :=
  let boundary := l.nrActive
  let (l, moves) := l.swap position boundary
  (l.setNrActive (boundary + 1), moves)

@[simp] theorem size_activate (l : Incidence κ) (position : Nat) :
    (l.activate position).1.size = l.size := by
  simp [activate]

@[simp] theorem nrActive_activate (l : Incidence κ) (position : Nat) :
    (l.activate position).1.nrActive = l.nrActive + 1 := by
  simp [activate]

/-- Move the entry at a position from the active part to the start of the rest. -/
def deactivate (l : Incidence κ) (position : Nat) : Incidence κ × List (Move κ) :=
  let last := l.nrActive - 1
  let (l, moves) := l.swap position last
  (l.setNrActive last, moves)

@[simp] theorem size_deactivate (l : Incidence κ) (position : Nat) :
    (l.deactivate position).1.size = l.size := by
  simp [deactivate]

@[simp] theorem nrActive_deactivate (l : Incidence κ) (position : Nat) :
    (l.deactivate position).1.nrActive = l.nrActive - 1 := by
  simp [deactivate]

end Incidence

end CertifiedLp
