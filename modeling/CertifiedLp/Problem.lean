import CertifiedLp.Line

/-!
# Problems

The variables of a problem, with the objective and the bounds that hold outside of dives. Columns
are created for them, and a dive ends by resetting the columns to what the variables say.
-/

namespace CertifiedLp

/-- A variable. -/
structure Variable where
  /-- The name. -/
  name : String
  /-- The objective coefficient and the bounds. -/
  spec : ColumnSpec
  /-- The values that it may take. -/
  kind : VariableKind
  /-- The column that was created for it. -/
  column : Option ColumnRef
  deriving DecidableEq

instance : Inhabited Variable := ⟨⟨"", default, .continuous, none⟩⟩

/-- The variables of a problem. -/
structure Problem where
  /-- All variables, in the order in which they were added. -/
  items : Array Variable

namespace Problem

/-- A problem without variables. -/
def empty : Problem := ⟨#[]⟩

/-- The number of variables. -/
def size (p : Problem) : Nat := p.items.size

/-- Whether there are no variables. -/
def isEmpty (p : Problem) : Bool := p.items.isEmpty

/-- A variable of the problem. -/
def get (p : Problem) (x : VariableRef) : Variable := p.items.getD x.index default

/-- Change a variable. -/
def modify (p : Problem) (x : VariableRef) (f : Variable → Variable) : Problem :=
  ⟨p.items.modify x.index f⟩

@[simp] theorem size_modify (p : Problem) (x : VariableRef) (f : Variable → Variable) :
    (p.modify x f).size = p.size := by
  simp [modify, size]

/-- Add a variable without a column. -/
def add (p : Problem) (name : String) (spec : ColumnSpec) (kind : VariableKind) :
    Problem × VariableRef :=
  (⟨p.items.push ⟨name, spec, kind, none⟩⟩, ⟨p.size⟩)

end Problem

end CertifiedLp
