/-!
# References

Columns, rows and variables are created once and never move, so they refer to each other by number.
The number of a reference is also the key by which lists of references are sorted.
-/

namespace CertifiedLp

/-- A type of references, which are ordered by their number. -/
class Reference (κ : Type) where
  /-- The number of a reference. -/
  index : κ → Nat
  /-- Different references have different numbers. -/
  index_injective : ∀ {a b : κ}, index a = index b → a = b

instance : Reference Nat where
  index n := n
  index_injective h := h

/-- A column of a linear program. -/
structure ColumnRef where
  /-- How many columns were created before this one. -/
  index : Nat
  deriving DecidableEq, Inhabited

instance : Reference ColumnRef where
  index := ColumnRef.index
  index_injective := fun {a b} h => by cases a; cases b; simp_all

instance : ToString ColumnRef := ⟨fun c => "c" ++ toString c.index⟩

/-- A row of a linear program. -/
structure RowRef where
  /-- How many rows were created before this one. -/
  index : Nat
  deriving DecidableEq, Inhabited

instance : Reference RowRef where
  index := RowRef.index
  index_injective := fun {a b} h => by cases a; cases b; simp_all

instance : ToString RowRef := ⟨fun r => "r" ++ toString r.index⟩

/-- A variable of a problem. -/
structure VariableRef where
  /-- How many variables were added before this one. -/
  index : Nat
  deriving DecidableEq, Inhabited

instance : ToString VariableRef := ⟨fun x => "x" ++ toString x.index⟩

end CertifiedLp
