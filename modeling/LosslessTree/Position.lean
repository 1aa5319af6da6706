import LosslessTree.Coordinate

/-!
# `Position` — a cursor position and its arithmetic

A position is a line and a column of rendered text. Both count from 1, and a column counts
characters. Differences and negations of positions are positions too, so either number may be
zero or negative in between.

Order is line-major: every position of line 1 comes before every position of line 2.

## Contents
- **Cursor steps.** `advanceColumns`, `advanceLine`, `left`, `right`.
- **Arithmetic.** `add`, `subtract`, `negate`; the line is settled before the column.
- **Order.** `≤` and `<`, `compare`, and `compareWith` for a list of coordinates.
-/

namespace LosslessTree

/-- A line and a column of rendered text. -/
structure Position where
  line : Int
  column : Int
  deriving DecidableEq, Repr

namespace Position

/-- The position before any text: line 1, column 1. -/
def start : Position := ⟨1, 1⟩

instance : Inhabited Position := ⟨start⟩

/-! ## Cursor steps -/

/-- Moves `n` columns to the right on the same line. -/
def advanceColumns (p : Position) (n : Int) : Except Overflow Position := do
  return { p with column := ← Coordinate.add p.column n }

/-- Moves to the first column of the next line. -/
def advanceLine (p : Position) : Except Overflow Position := do
  return ⟨← Coordinate.add p.line 1, 1⟩

/-- The position one column to the left. -/
def left (p : Position) : Except Overflow Position := do
  return { p with column := ← Coordinate.subtract p.column 1 }

/-- The position one column to the right. -/
def right (p : Position) : Except Overflow Position := do
  return { p with column := ← Coordinate.add p.column 1 }

/-! ## Arithmetic -/

/-- Sum by line and column. -/
def add (p q : Position) : Except Overflow Position := do
  return ⟨← Coordinate.add p.line q.line, ← Coordinate.add p.column q.column⟩

/-- Difference by line and column. -/
def subtract (p q : Position) : Except Overflow Position := do
  return ⟨← Coordinate.subtract p.line q.line, ← Coordinate.subtract p.column q.column⟩

/-- Negation of line and column. -/
def negate (p : Position) : Except Overflow Position := do
  return ⟨← Coordinate.negate p.line, ← Coordinate.negate p.column⟩

/-- Neither the line nor the column is negative. -/
def isNonNegative (p : Position) : Bool := decide (0 ≤ p.line) && decide (0 ≤ p.column)

/-! ## Order -/

instance : LE Position :=
  ⟨fun p q => p.line < q.line ∨ (p.line = q.line ∧ p.column ≤ q.column)⟩

instance : LT Position :=
  ⟨fun p q => p.line < q.line ∨ (p.line = q.line ∧ p.column < q.column)⟩

instance (p q : Position) : Decidable (p ≤ q) := inferInstanceAs (Decidable (_ ∨ _))

instance (p q : Position) : Decidable (p < q) := inferInstanceAs (Decidable (_ ∨ _))

/-- Line-major comparison. -/
def compare (p q : Position) : Ordering :=
  if p < q then .lt else if q < p then .gt else .eq

/-- Comparison with a line and a column given as a list; a list of any other length has no place
    in the order. -/
def compareWith (p : Position) : List Int → Option Ordering
  | [line, column] => some (p.compare ⟨line, column⟩)
  | _ => none

/-- The written form `line:column`. -/
def text (p : Position) : String := toString p.line ++ ":" ++ toString p.column

theorem le_iff {p q : Position} :
    p ≤ q ↔ p.line < q.line ∨ (p.line = q.line ∧ p.column ≤ q.column) := Iff.rfl

theorem lt_iff {p q : Position} :
    p < q ↔ p.line < q.line ∨ (p.line = q.line ∧ p.column < q.column) := Iff.rfl

end Position

end LosslessTree
