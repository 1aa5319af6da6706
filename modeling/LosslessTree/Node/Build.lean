import LosslessTree.Node.Basic

/-!
# `Node.Build` — composites with distinct fields

A composite is built slot by slot. A field is refused when one of the same name is there already, so
that a name never has two candidates. `Node.Distinct` says this of every composite in a tree.
-/

namespace LosslessTree

/-- A composite being built. -/
structure Composite where
  kind : String
  slots : List Slot
  deriving DecidableEq

/-- A field name that a composite has already. -/
structure DuplicateField where
  kind : String
  key : String
  deriving DecidableEq, Repr

/-- The text under which a duplicate field is reported. -/
def DuplicateField.message (e : DuplicateField) : String :=
  "field `" ++ e.key ++ "` appears more than once in a `" ++ e.kind ++ "` node"

namespace Composite

/-- A composite without slots. -/
def empty (kind : String) : Composite := ⟨kind, []⟩

/-- Appends text of the composite itself. -/
def addText (c : Composite) (text : String) : Composite :=
  { c with slots := c.slots ++ [.text text] }

/-- Appends a field, unless there is one of that name. -/
def addField (c : Composite) (key : String) (value : Node) : Except DuplicateField Composite :=
  if (Slot.fieldValue c.slots key).isSome then .error ⟨c.kind, key⟩
  else .ok { c with slots := c.slots ++ [.field key value] }

/-- Appends a slot. -/
def addSlot (c : Composite) : Slot → Except DuplicateField Composite
  | .text text => .ok (c.addText text)
  | .field key value => c.addField key value

/-- A composite with the given slots. -/
def ofSlots (kind : String) (slots : List Slot) : Except DuplicateField Composite :=
  slots.foldlM addSlot (empty kind)

/-- The composite as a node. -/
def toNode (c : Composite) : Node := .composite c.kind c.slots

end Composite

mutual

/-- No composite in the tree has two fields of one name. -/
def Node.Distinct : Node → Prop
  | .constant _ => True
  | .list items => Node.DistinctItems items
  | .composite _ slots =>
    ((Slot.fields slots).map (·.1)).Nodup ∧ Node.DistinctSlots slots

/-- Every node of the list has distinct fields throughout. -/
def Node.DistinctItems : List Node → Prop
  | [] => True
  | node :: rest => node.Distinct ∧ Node.DistinctItems rest

/-- Every field value among the slots has distinct fields throughout. -/
def Node.DistinctSlots : List Slot → Prop
  | [] => True
  | .text _ :: rest => Node.DistinctSlots rest
  | .field _ value :: rest => value.Distinct ∧ Node.DistinctSlots rest

end

end LosslessTree
