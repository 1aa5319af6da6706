import LosslessTree.BoundingBox
import LosslessTree.Json.Value
import LosslessTree.Path.Basic
import LosslessTree.Record

/-!
# `Json.Reading` — positions, boxes and paths in JSON

Positions and boxes are records: `{"line":1,"column":2}`, or `[1,2]` by order. A path is an array of
its keys, an index being a number and a name a string.
-/

namespace LosslessTree

namespace Json

/-- How records are read from JSON texts. Only what a record asks for is given a value. -/
def reading : Reading Raw where
  text?
    | .string pieces => decodeText pieces
    | _ => none
  integer?
    | .number n => n.integer?
    | _ => none
  flag?
    | .bool b => some b
    | _ => none
  isNothing
    | .null => true
    | _ => false
  items?
    | .array items => some items
    | _ => none
  members?
    | .object members => members.mapM fun (name, value) => return (← decodeText name, value)
    | _ => none
  isWhole depth raw := (raw.settle (maxDepth - depth)).isSome
  allowsSurplus := false

/-- A text that is one value, and the record that it spells. -/
def readRecord {α : Type} (read : Raw → Option α) (text : String) : Option α :=
  (Raw.readAll text).bind read

end Json

namespace Reading

variable {ν : Type}

/-- An integer in the range of coordinates. -/
def coordinate (r : Reading ν) (value : ν) : Option Int :=
  (r.integer? value).filter (decide <| Coordinate.InRange ·)

/-- A position as a record. -/
def position (r : Reading ν) (value : ν) : Option Position :=
  match r.fields ["line", "column"] value with
  | some [line, column] => do
    return ⟨← required r.coordinate line, ← required r.coordinate column⟩
  | _ => none

/-- A box as a record. -/
def boundingBox (r : Reading ν) (value : ν) : Option BoundingBox :=
  match r.fields ["top_left", "bottom_right"] value with
  | some [topLeft, bottomRight] => do
    return ⟨← required r.position topLeft, ← required r.position bottomRight⟩
  | _ => none

end Reading

/-- The position that a JSON text spells. -/
def Position.ofJsonText? (text : String) : Option Position :=
  Json.readRecord Json.reading.position text

/-- The box that a JSON text spells. -/
def BoundingBox.ofJsonText? (text : String) : Option BoundingBox :=
  Json.readRecord Json.reading.boundingBox text

/-- A position as a JSON value. -/
def Position.toJson (p : Position) : Json :=
  .object [("line", .integer p.line), ("column", .integer p.column)]

/-- A box as a JSON value. -/
def BoundingBox.toJson (b : BoundingBox) : Json :=
  .object [("top_left", b.topLeft.toJson), ("bottom_right", b.bottomRight.toJson)]

/-! ## Paths -/

/-- A key as a JSON value. -/
def Key.toJson : Key → Json
  | .index i => .integer i
  | .name s => .string s

/-- The key that a JSON value spells. -/
def Key.ofJson? : Json → Option Key
  | .integer n => if 0 ≤ n ∧ n < Key.indexBound then some (.index n.toNat) else none
  | .string s => some (.name s)
  | _ => none

/-- A path as a JSON value. -/
def Path.toJson (p : Path) : Json := .array (p.map Key.toJson)

/-- The path that a JSON text spells. -/
def Path.ofJsonText? (text : String) : Option Path :=
  Json.readRecord (Json.reading.sequence fun item =>
    (item.settle (Json.maxDepth - 1)).bind Key.ofJson?) text

end LosslessTree
