import LosslessTree.BoundingBox
import LosslessTree.Resolve.PathWalk
import LosslessTree.Text.Newline

/-!
# `Resolve.Extent` — the box of the node at a path

The walk keeps two positions: the cursor, where the next character will stand, and the position of
the last character so far. The first item whose path is the wanted one opens the box at the cursor;
when the walk leaves that item, the box ends at the last character, or where it began if no character
came in between, and the walk halts.

The texts of a composite have the path of the composite. The item that opened the box is therefore
told apart by how deep the walk was when it entered it.
-/

namespace LosslessTree

/-- A measurement of the text of the node at a path. -/
structure Measure where
  /-- Where the next character will stand. -/
  cursor : Position
  /-- Where the last character stands; before any character, left of the first column. -/
  last : Position
  /-- Number of items entered and not left. -/
  depth : Nat
  /-- Where the wanted item begins, and its depth. -/
  opened : Option (Position × Nat)
  /-- Whether a character came since the wanted item was entered. -/
  inked : Bool
  /-- Where the wanted item ends. -/
  closed : Option Position
  deriving DecidableEq, Repr

namespace Measure

/-- A measurement at the start of the text. -/
def start : Measure := ⟨Position.start, ⟨1, 0⟩, 0, none, false, none⟩

/-- Passes over the runs of a leaf. -/
def consume : List Run → Measure → Except Overflow Measure
  | [], m => .ok m
  | .newline _ :: rest, m => do
    consume rest { m with cursor := ← m.cursor.advanceLine }
  | .stretch [] :: rest, m => consume rest m
  | .stretch (c :: chars) :: rest, m => do
    let cursor ← m.cursor.advanceColumns (Coordinate.ofCount (c :: chars).length)
    let last ← cursor.left
    consume rest { m with cursor, last, inked := m.inked || m.opened.isSome }

/-- Enters an item: opens the box if this is the first item at the wanted path. -/
def enter (wanted path : Path) (m : Measure) : Measure :=
  let depth := m.depth + 1
  if m.opened.isNone && decide (path = wanted) then
    { m with depth, opened := some (m.cursor, depth) }
  else { m with depth }

/-- Leaves an item: closes the box if this is the item that opened it. -/
def leave (m : Measure) : Measure × Flow :=
  let left := { m with depth := m.depth - 1 }
  match m.opened, m.closed with
  | some (topLeft, depth), none =>
    if depth = m.depth then ({ left with closed := some (if m.inked then m.last else topLeft) }, .halt)
    else (left, .proceed)
  | _, _ => (left, .proceed)

/-- The measurement of the node at `wanted` as a strategy. -/
def strategy (wanted : Path) : Strategy (Except Overflow Measure) where
  onEnter path item := attempt fun m => do
    let m := m.enter wanted path
    match item with
    | .constant text => return (← m.consume (Text.runs text), .proceed)
    | _ => return (m, .proceed)
  onLeave _ _ := attempt fun m => .ok m.leave

/-- The box, if the wanted item was entered and left. -/
def box? (m : Measure) : Option BoundingBox :=
  match m.opened, m.closed with
  | some (topLeft, _), some bottomRight => some ⟨topLeft, bottomRight⟩
  | _, _ => none

end Measure

/-- The box of the node at a path, if the walk meets such a node. -/
def Node.boxAt? (tree : Node) (path : Path) : Except Overflow (Option BoundingBox) :=
  ((Measure.strategy path).run tree (.ok Measure.start)).map Measure.box?

/-- Why a path has no box. -/
inductive BoxError where
  | noSuchPath (path : Path)
  | overflow (step : Overflow)
  deriving DecidableEq, Repr

/-- The text under which the error is reported. -/
def BoxError.message : BoxError → String
  | .noSuchPath path => "path `" ++ path.text ++ "` does not exist in the tree"
  | .overflow step => step.message

/-- The box of the node at a path, in the coordinates of the tree. -/
def Node.boxAt (tree : Node) (path : Path) : Except BoxError BoundingBox :=
  match tree.boxAt? path with
  | .ok (some box) => .ok box
  | .ok none => .error (.noSuchPath path)
  | .error step => .error (.overflow step)

/-- The box of all that a node renders. -/
def Node.box (node : Node) : Except Overflow BoundingBox :=
  (node.boxAt? Path.root).map (·.getD BoundingBox.start)

end LosslessTree
