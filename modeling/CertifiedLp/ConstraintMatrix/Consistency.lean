import CertifiedLp.ConstraintMatrix.Basic

/-!
# Consistency of a matrix

What has to hold between the lists of columns and rows: linked entries refer to each other and have
the same value, an entry is in the active part exactly when it is linked to an active line, and
every partner exists.
-/

namespace CertifiedLp

namespace ConstraintMatrix

/-- Whether an entry at a position of a line agrees with the list of its partner: its link, if it
has one, leads to an entry that refers back and has the same value, and the part is right. -/
def entryAgrees {κ lam : Type} [Reference lam] (line : lam) (l : Incidence κ) (position : Nat)
    (e : Entry κ) (partnerActive : Bool) (partnerEntries : Incidence lam) : Bool :=
  let linkAgrees := match e.link with
    | none => true
    | some link =>
      match partnerEntries.entry? link with
      | none => false
      | some back =>
        Reference.index back.partner == Reference.index line && back.link == some position &&
          back.value == e.value
  decide (position < l.nrActive) == (e.link.isSome && partnerActive) && linkAgrees

/-- Whether the list of a column is right. -/
def columnAgrees (m : ConstraintMatrix) (c : ColumnRef) : Bool :=
  let l := (m.column c).entries
  l.isConsistent && l.entries.toList.zipIdx.all fun (e, position) =>
    match m.row? e.partner with
    | none => false
    | some row => entryAgrees c l position e row.isActive row.entries

/-- Whether the list of a row is right. A row that delays its order has no linked entry. -/
def rowAgrees (m : ConstraintMatrix) (r : RowRef) : Bool :=
  match m.row? r with
  | none => true
  | some row =>
    let l := row.entries
    l.isConsistent && (!row.delayed || row.isUnlinked) &&
      l.entries.toList.zipIdx.all fun (e, position) =>
        e.partner.index < m.columns.size &&
          entryAgrees r l position e (m.column e.partner).isActive (m.column e.partner).entries

/-- Whether all lists are right. -/
def isConsistent (m : ConstraintMatrix) : Bool :=
  m.columnRefs.all m.columnAgrees && m.rowRefs.all m.rowAgrees

end ConstraintMatrix

end CertifiedLp
