import LosslessTree.Json.Value
import LosslessTree.Json.Reading
import LosslessTree.Node.Build

/-!
# `Node.Json` — trees in JSON

A constant is a string, a list is an array, and a composite is an object with its kind under `type`
and its slots under `children`. A slot is a string, or an object with `key` and `value`.

Reading is more lenient than writing. Members with other names are passed over, `children` may be
missing, and a composite may also be an array of its kind and its slots; an array is read like this
only when it cannot be read as a list. A composite whose fields are not distinct cannot be read.

The text is read in three steps that can fail: it has to begin with a JSON value, the value has to be
a tree, and nothing may follow it. A fault in an earlier step is reported first.

## Contents
- **`Node.toJson`**, and `Node.jsonText`.
- **`Node.ofJson?`**, by recursion on the value.
- **`Node.ofJsonText`**, and `TreeFault`, how it fails.
- **`Composite.ofJsonText`**, for a text that is a composite and nothing else.
-/

namespace LosslessTree

/-! ## Writing -/

mutual

/-- A tree as a JSON value. -/
def Node.toJson : Node → Json
  | .constant text => .string text
  | .list items => .array (Node.itemsToJson items)
  | .composite kind slots =>
    .object [("type", .string kind), ("children", .array (Node.slotsToJson slots))]

/-- The elements of a list as JSON values. -/
def Node.itemsToJson : List Node → List Json
  | [] => []
  | node :: rest => node.toJson :: Node.itemsToJson rest

/-- The slots of a composite as JSON values. -/
def Node.slotsToJson : List Slot → List Json
  | [] => []
  | .text text :: rest => .string text :: Node.slotsToJson rest
  | .field key value :: rest =>
    .object [("key", .string key), ("value", value.toJson)] :: Node.slotsToJson rest

end

/-- A tree as a JSON text. -/
def Node.jsonText (node : Node) : String := node.toJson.text

/-! ## Reading -/

/-- A composite with the given slots as a node, if its fields are distinct. -/
def Composite.nodeOfSlots? (kind : String) (slots : List Slot) : Option Node :=
  (Composite.ofSlots kind slots).toOption.map Composite.toNode

mutual

/-- The tree that a JSON value spells. -/
def Node.ofJson? : Json → Option Node
  | .string text => some (.constant text)
  | .array items =>
    match Node.itemsOfJson? items with
    | some nodes => some (.list nodes)
    | none => Node.compositeOfItems? items
  | .object members => Node.compositeOfMembers? none none members
  | _ => none

/-- The nodes that JSON values spell. -/
def Node.itemsOfJson? : List Json → Option (List Node)
  | [] => some []
  | item :: rest => do
    let node ← Node.ofJson? item
    let nodes ← Node.itemsOfJson? rest
    return node :: nodes

/-- The composite that an array of its kind and its slots spells. -/
def Node.compositeOfItems? : List Json → Option Node
  | [.string kind] => Composite.nodeOfSlots? kind []
  | [.string kind, .array slots] => (Node.slotsOfJson? slots).bind (Composite.nodeOfSlots? kind)
  | _ => none

/-- The composite that the members of an object spell, of which `kind` and `slots` are known. -/
def Node.compositeOfMembers? (kind : Option String) (slots : Option (List Slot)) :
    List (String × Json) → Option Node
  | [] => kind.bind fun kind => Composite.nodeOfSlots? kind (slots.getD [])
  | (name, value) :: rest =>
    if name = "type" then
      match kind, value with
      | none, .string text => Node.compositeOfMembers? (some text) slots rest
      | _, _ => none
    else if name = "children" then
      match slots, value with
      | none, .array items => do
        let read ← Node.slotsOfJson? items
        Node.compositeOfMembers? kind (some read) rest
      | _, _ => none
    else Node.compositeOfMembers? kind slots rest

/-- The slots that JSON values spell. -/
def Node.slotsOfJson? : List Json → Option (List Slot)
  | [] => some []
  | item :: rest => do
    let slot ← match item with
      | .string text => some (.text text)
      | .object members => Node.fieldOfMembers? none none members
      | _ => none
    let slots ← Node.slotsOfJson? rest
    return slot :: slots

/-- The field that the members of an object spell, of which `key` and `node` are known. -/
def Node.fieldOfMembers? (key : Option String) (node : Option Node) :
    List (String × Json) → Option Slot
  | [] => do
    return .field (← key) (← node)
  | (name, value) :: rest =>
    if name = "key" then
      match key, value with
      | none, .string text => Node.fieldOfMembers? (some text) node rest
      | _, _ => none
    else if name = "value" then
      match node with
      | none => do
        let read ← Node.ofJson? value
        Node.fieldOfMembers? key (some read) rest
      | some _ => none
    else Node.fieldOfMembers? key node rest

end

/-- How a text fails to be a tree. -/
inductive TreeFault where
  /-- The text is not a JSON text. -/
  | malformed
  /-- The value is not a tree. -/
  | notATree
  deriving DecidableEq, Repr

/-- The fault in words. -/
def TreeFault.reason : TreeFault → String
  | .malformed => "malformed JSON text"
  | .notATree => "data did not match any variant of untagged enum Node"

/-- The text under which the fault is reported. -/
def TreeFault.message (fault : TreeFault) : String := "invalid tree JSON: " ++ fault.reason

/-- The tree that a JSON text spells. -/
def Node.ofJsonText (text : String) : Except TreeFault Node :=
  match Json.Raw.read text.toList with
  | none => .error .malformed
  | some (raw, rest) =>
    match raw.settle Json.maxDepth with
    | none => .error .malformed
    | some value =>
      match Node.ofJson? value with
      | none => .error .notATree
      | some node => if (Json.skipGap rest).isEmpty then .ok node else .error .malformed

/-! ## Composites -/

/-- How a text fails to be a composite. -/
inductive CompositeFault where
  /-- The text is not JSON, or not of the shape of a composite. -/
  | unreadable
  /-- The composite itself has a field twice. -/
  | duplicate (e : DuplicateField)
  deriving DecidableEq, Repr

/-- The kind and the slots of a composite, given as a record. -/
def Composite.partsOfRaw? (raw : Json.Raw) : Option (String × List Slot) :=
  match Json.reading.fields ["type", "children"] raw with
  | some [kind, children] => do
    let kind ← Reading.required Json.reading.text? kind
    let slots ← Reading.withDefault [] (fun value => do
      let items ← Json.reading.items? value
      let values ← items.mapM (Json.Raw.settle (Json.maxDepth - 2))
      Node.slotsOfJson? values) children
    return (kind, slots)
  | _ => none

/-- The composite that a JSON text spells. -/
def Composite.ofJsonText (text : String) : Except CompositeFault Composite :=
  match Json.Raw.read text.toList with
  | none => .error .unreadable
  | some (raw, rest) =>
    match Composite.partsOfRaw? raw with
    | none => .error .unreadable
    | some (kind, slots) =>
      match Composite.ofSlots kind slots with
      | .error e => .error (.duplicate e)
      | .ok composite =>
        if (Json.skipGap rest).isEmpty then .ok composite else .error .unreadable

end LosslessTree
