import LosslessTree.Position
import LosslessTree.Resolve.PathWalk
import LosslessTree.Text.Newline

/-!
# `Resolve.Cursor` — the node at a position

The search walks the tree with a cursor on the character that comes next. Each leaf is cut at its
line ends. The first stretch on the line of the target whose columns, from the cursor up to but not
including the cursor plus its width, hold the target's column is the answer, and the path of its leaf
is the result. Line ends belong to no node, so the search ends without a result as soon as the
cursor has passed the line of the target.
-/

namespace LosslessTree

/-- A search for the node at a position. -/
structure Search where
  /-- Where the next character will stand. -/
  cursor : Position
  /-- The path of the leaf at the target. -/
  found : Option Path
  deriving DecidableEq, Repr

namespace Search

/-- A search at the start of the text. -/
def start : Search := ⟨Position.start, none⟩

/-- Whether a stretch of `width` characters at the cursor covers the target. -/
def covers (target cursor : Position) (width : Int) : Except Overflow Bool :=
  if target.line = cursor.line ∧ cursor.column ≤ target.column then do
    return decide (target.column < (← Coordinate.add cursor.column width))
  else
    return false

/-- Goes through the runs of a leaf at `path`. -/
def scan (target : Position) (path : Path) : List Run → Search → Except Overflow (Search × Flow)
  | [], s => .ok (s, .proceed)
  | .newline _ :: rest, s => do
    let cursor ← s.cursor.advanceLine
    if target.line < cursor.line then return ({ s with cursor }, .halt)
    else scan target path rest { s with cursor }
  | .stretch chars :: rest, s => do
    let width := Coordinate.ofCount chars.length
    if ← covers target s.cursor width then return ({ s with found := some path }, .halt)
    else
      let cursor ← s.cursor.advanceColumns width
      scan target path rest { s with cursor }

/-- The search for `target` as a strategy. -/
def strategy (target : Position) : Strategy (Except Overflow Search) where
  onLeaf path text := attempt (scan target path (Text.runs text))

end Search

/-- The path of the node whose text covers a position. -/
def Node.pathAt (tree : Node) (target : Position) : Except Overflow (Option Path) :=
  ((Search.strategy target).run tree (.ok Search.start)).map (·.found)

/-- The node whose text covers a position. -/
def Node.nodeAt (tree : Node) (target : Position) : Except Overflow (Option Node) := do
  match ← tree.pathAt target with
  | none => return none
  | some path => return (tree.descend path).toOption

end LosslessTree
