import CertifiedLp.Incidence.Basic

/-!
# Order in incidence lists

Sorting a part by partner, finding a partner in a sorted part by bisection, and merging a list in
which partners may occur several times. The last part of the file recounts everything that a list
caches, to tell whether the caches are right.
-/

namespace CertifiedLp

open Reference (index)

namespace Incidence

variable {κ : Type} [Reference κ]

/-- The entries of a part with their positions. -/
def positioned (l : Incidence κ) (part : Part) : List (Entry κ × Nat) :=
  let (start, stop) := l.range part
  (l.entries.extract start stop).toList.zipIdx start

/-- Sort a part by partner. Entries with the same partner keep their order. -/
def sort (l : Incidence κ) (part : Part) : Incidence κ × List (Move κ) :=
  if l.isSorted part then (l, [])
  else
    let (start, stop) := l.range part
    let sorted := (l.positioned part).mergeSort fun a b => index a.1.partner ≤ index b.1.partner
    let entries := l.entries.extract 0 start ++ (sorted.map (·.1)).toArray ++
      l.entries.extract stop l.size
    let moves := (sorted.zipIdx start).filterMap fun ((entry, old), new) =>
      if new = old then none
      else entry.link.map fun counterpart => ⟨entry.partner, counterpart, new⟩
    ({ l with entries }.modifyDescents part fun _ => 0, moves)

/-- The number of the partner at a position. -/
def keyAt (l : Incidence κ) (position : Nat) : Nat :=
  ((l.entry? position).map fun e => index e.partner).getD 0

/-- Halve an interval of `size` positions from `base` until one position is left. In a sorted
interval it is the last one whose key is at most the given one, if there is such a position. -/
def bisect (l : Incidence κ) (key base size : Nat) : Nat :=
  if size ≤ 1 then base
  else
    let half := size / 2
    let middle := base + half
    l.bisect key (if key < l.keyAt middle then base else middle) (size - half)
termination_by size

/-- The position of a partner in a sorted part. -/
def find? (l : Incidence κ) (part : Part) (partner : κ) : Option Nat :=
  let (start, stop) := l.range part
  if stop ≤ start then none
  else
    let position := l.bisect (index partner) start (stop - start)
    if l.keyAt position = index partner then some position else none

/-- Add up the values of neighbours with the same partner. -/
def sumRuns : List (κ × Extended) → List (κ × Extended)
  | [] => []
  | [x] => [x]
  | x :: y :: rest =>
    if index x.1 = index y.1 then sumRuns ((x.1, x.2 + y.2) :: rest)
    else x :: sumRuns (y :: rest)
termination_by xs => xs.length

/-- Sort all entries of a list without links, add up the values of each partner, and drop the sums
that are zero. -/
def merge (l : Incidence κ) : Incidence κ :=
  let sorted := (l.entries.toList.map fun e => (e.partner, e.value)).mergeSort fun a b =>
    index a.1 ≤ index b.1
  let merged := (sumRuns sorted).filter fun x => !x.2.isZero
  { entries := (merged.map fun x => ⟨x.1, x.2, none⟩).toArray
    nrActive := l.nrActive
    nrUnlinked := merged.length
    activeDescents := 0
    restDescents := 0 }

/-! ## Recounting -/

/-- The number of neighbours in a part that are out of order, counted anew. -/
def countDescents (l : Incidence κ) (part : Part) : Nat :=
  (List.range l.size).countP fun position => l.isDescent position && l.partOf position == part

/-- Whether everything that the list caches agrees with its entries, every entry of the active part
has a link, and no coefficient is zero. -/
def isConsistent (l : Incidence κ) : Bool :=
  l.nrActive ≤ l.size &&
  l.nrUnlinked == l.entries.toList.countP (·.link.isNone) &&
  l.activeEntries.all (·.link.isSome) &&
  l.activeDescents == l.countDescents .active &&
  l.restDescents == l.countDescents .rest &&
  l.entries.all fun e => !e.value.isZero

end Incidence

end CertifiedLp
