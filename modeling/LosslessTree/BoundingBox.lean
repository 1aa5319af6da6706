import LosslessTree.Position

/-!
# `BoundingBox` — the stretch of text that a node occupies

A box is given by the positions of its first and its last character, both included. It is a range
of the text and not a rectangle: lines between the first and the last belong to it as a whole.
-/

namespace LosslessTree

/-- The text from the character at `topLeft` to the character at `bottomRight`, both included. -/
structure BoundingBox where
  topLeft : Position
  bottomRight : Position
  deriving DecidableEq, Repr

namespace BoundingBox

/-- The box of the very first position, taken where nothing else is known. -/
def start : BoundingBox := ⟨Position.start, Position.start⟩

instance : Inhabited BoundingBox := ⟨start⟩

/-- Number of lines that the box touches. -/
def lineSpan (b : BoundingBox) : Except Overflow Int := do
  Coordinate.add (← Coordinate.subtract b.bottomRight.line b.topLeft.line) 1

/-- Whether `p` lies between the two corners. -/
def contains (b : BoundingBox) (p : Position) : Bool :=
  decide (b.topLeft ≤ p) && decide (p ≤ b.bottomRight)

/-- The written form `topLeft..bottomRight`. -/
def text (b : BoundingBox) : String := b.topLeft.text ++ ".." ++ b.bottomRight.text

theorem contains_iff {b : BoundingBox} {p : Position} :
    b.contains p = true ↔ b.topLeft ≤ p ∧ p ≤ b.bottomRight := by
  simp [contains]

end BoundingBox

end LosslessTree
