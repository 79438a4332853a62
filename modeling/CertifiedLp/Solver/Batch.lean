import CertifiedLp.Extended.Basic

/-!
# Batches of columns and rows

New columns or rows are handed to a solver together. Their coefficients are compressed: one list of
positions and one of values for all lines, and for each line the place where its part starts.
-/

namespace CertifiedLp

/-- The coefficients of several lines. -/
structure Compressed where
  /-- Where the coefficients of each line start. -/
  starts : Array Nat
  /-- The position of each coefficient in its line. -/
  indices : Array Nat
  /-- The value of each coefficient. -/
  values : Array Extended
  deriving DecidableEq

namespace Compressed

/-- No lines. -/
def empty : Compressed := ⟨#[], #[], #[]⟩

/-- Where the coefficients of a line start and end. They end where those of the next line start,
and those of the last line at the end of the list. -/
def range? (c : Compressed) (line : Nat) : Option (Nat × Nat) :=
  (c.starts[line]?).map fun start => (start, (c.starts[line + 1]?).getD c.indices.size)

/-- The coefficients of a line, by position. -/
def items (c : Compressed) (line : Nat) : List (Nat × Extended) :=
  match c.range? line with
  | none => []
  | some (start, stop) =>
    ((c.indices.extract start stop).zip (c.values.extract start stop)).toList

/-- Append a line. -/
def push (c : Compressed) (items : List (Nat × Extended)) : Compressed where
  starts := c.starts.push c.indices.size
  indices := c.indices ++ (items.map (·.1)).toArray
  values := c.values ++ (items.map (·.2)).toArray

@[simp] theorem size_starts_push (c : Compressed) (items : List (Nat × Extended)) :
    (c.push items).starts.size = c.starts.size + 1 := by
  simp [push]

/-- Another line does not change where the lines before it are. -/
theorem range?_push_of_lt {c : Compressed} {line : Nat} (h : line < c.starts.size)
    (items : List (Nat × Extended)) : (c.push items).range? line = c.range? line := by
  have hline : (c.push items).starts[line]? = c.starts[line]? := by
    simp [push, Array.getElem?_push_lt, h]
  have hnext : ((c.push items).starts[line + 1]?).getD (c.push items).indices.size =
      (c.starts[line + 1]?).getD c.indices.size := by
    rcases Nat.lt_or_eq_of_le (Nat.succ_le_of_lt h) with hlt | heq
    · simp [push, Array.getElem?_push_lt, hlt]
    · rw [Nat.succ_eq_add_one] at heq
      simp [push, heq]
  rw [range?, range?, hline, hnext]

/-- The last line consists of what was appended last. -/
theorem items_push_self {c : Compressed} (h : c.values.size = c.indices.size)
    (items : List (Nat × Extended)) : (c.push items).items c.starts.size = items := by
  have hrange : (c.push items).range? c.starts.size =
      some (c.indices.size, c.indices.size + items.length) := by
    simp [range?, push]
  have hfirst : (items.map (·.1)).take items.length = items.map (·.1) :=
    List.take_of_length_le (by simp)
  have hsecond : (items.map (·.2)).take items.length = items.map (·.2) :=
    List.take_of_length_le (by simp)
  have holdValues : c.values.toList.drop c.indices.size = [] :=
    List.drop_of_length_le (by simp [h])
  rw [Compressed.items, hrange]
  simp [push, h, hfirst, hsecond, holdValues, List.zip_map']

end Compressed

/-- New columns, with coefficients in the rows that the solver has. -/
structure ColumnBatch where
  /-- The objective coefficient of each column. -/
  objective : Array Extended
  /-- The lower bound of each column. -/
  lower : Array Extended
  /-- The upper bound of each column. -/
  upper : Array Extended
  /-- The coefficients, by row position. -/
  entries : Compressed
  deriving DecidableEq

namespace ColumnBatch

/-- No columns. -/
def empty : ColumnBatch := ⟨#[], #[], #[], .empty⟩

/-- The number of columns. -/
def size (b : ColumnBatch) : Nat := b.objective.size

/-- Whether there are no columns. -/
def isEmpty (b : ColumnBatch) : Bool := b.objective.isEmpty

end ColumnBatch

/-- New rows, with coefficients in the columns that the solver has. -/
structure RowBatch where
  /-- The left-hand side of each row. -/
  lhs : Array Extended
  /-- The right-hand side of each row. -/
  rhs : Array Extended
  /-- The coefficients, by column position. -/
  entries : Compressed
  deriving DecidableEq

namespace RowBatch

/-- No rows. -/
def empty : RowBatch := ⟨#[], #[], .empty⟩

/-- The number of rows. -/
def size (b : RowBatch) : Nat := b.lhs.size

/-- Whether there are no rows. -/
def isEmpty (b : RowBatch) : Bool := b.lhs.isEmpty

end RowBatch

end CertifiedLp
