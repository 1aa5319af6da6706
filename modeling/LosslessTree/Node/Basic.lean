import LosslessTree.Path.Printer
import LosslessTree.Text.EditDistance

/-!
# `Node.Basic` — lossless trees

A tree keeps every character of the text it stands for. Its nodes are constants, which are pieces of
text, lists of nodes, and composites: nodes of a named kind, made of slots. A slot is either text of
the composite itself (a keyword, punctuation, a blank) or a field, a child with a name. Rendering
puts all texts together in their order.

A child is reached by a key: an element of a list by its index, a field by its name. Text of a
composite has no key.

## Contents
- **`Node`, `Slot`**, with decidable equality.
- **`Node.render`**, the text of a tree.
- **`Node.child`, `Node.descend`**, following keys, and **`MissingKey`**, where a path leaves the tree.
- **`Node.descendants`**, every node with its path, parents first.
-/

namespace LosslessTree

mutual

/-- A node of a lossless tree. -/
inductive Node where
  /-- A piece of text. -/
  | constant (text : String)
  /-- Nodes in their order, reached by index. -/
  | list (items : List Node)
  /-- A node of a named kind, made of slots. -/
  | composite (kind : String) (slots : List Slot)

/-- A part of a composite. -/
inductive Slot where
  /-- Text of the composite itself. -/
  | text (text : String)
  /-- A child reached under `key`. -/
  | field (key : String) (value : Node)

end

instance : Inhabited Node := ⟨.constant ""⟩

instance : Inhabited Slot := ⟨.text ""⟩

/-! ## Equality -/

mutual

/-- Decides whether two nodes are equal. -/
def Node.decEq : (a b : Node) → Decidable (a = b)
  | .constant s, .constant t =>
    if h : s = t then .isTrue (h ▸ rfl) else .isFalse fun e => h (Node.constant.inj e)
  | .list xs, .list ys =>
    match Node.decEqItems xs ys with
    | .isTrue h => .isTrue (h ▸ rfl)
    | .isFalse h => .isFalse fun e => h (Node.list.inj e)
  | .composite k xs, .composite l ys =>
    if hk : k = l then
      match Node.decEqSlots xs ys with
      | .isTrue h => .isTrue (hk ▸ h ▸ rfl)
      | .isFalse h => .isFalse fun e => h (Node.composite.inj e).2
    else .isFalse fun e => hk (Node.composite.inj e).1
  | .constant _, .list _ => .isFalse Node.noConfusion
  | .constant _, .composite _ _ => .isFalse Node.noConfusion
  | .list _, .constant _ => .isFalse Node.noConfusion
  | .list _, .composite _ _ => .isFalse Node.noConfusion
  | .composite _ _, .constant _ => .isFalse Node.noConfusion
  | .composite _ _, .list _ => .isFalse Node.noConfusion
termination_by structural x => x

/-- Decides whether two lists of nodes are equal. -/
def Node.decEqItems : (xs ys : List Node) → Decidable (xs = ys)
  | [], [] => .isTrue rfl
  | [], _ :: _ => .isFalse (List.cons_ne_nil _ _).symm
  | _ :: _, [] => .isFalse (List.cons_ne_nil _ _)
  | x :: xs, y :: ys =>
    match Node.decEq x y, Node.decEqItems xs ys with
    | .isTrue h, .isTrue hs => .isTrue (h ▸ hs ▸ rfl)
    | .isFalse h, _ => .isFalse fun e => h (List.cons.inj e).1
    | _, .isFalse hs => .isFalse fun e => hs (List.cons.inj e).2
termination_by structural x => x

/-- Decides whether two slots are equal. -/
def Slot.decEq : (a b : Slot) → Decidable (a = b)
  | .text s, .text t =>
    if h : s = t then .isTrue (h ▸ rfl) else .isFalse fun e => h (Slot.text.inj e)
  | .field k v, .field l w =>
    if hk : k = l then
      match Node.decEq v w with
      | .isTrue h => .isTrue (hk ▸ h ▸ rfl)
      | .isFalse h => .isFalse fun e => h (Slot.field.inj e).2
    else .isFalse fun e => hk (Slot.field.inj e).1
  | .text _, .field _ _ => .isFalse Slot.noConfusion
  | .field _ _, .text _ => .isFalse Slot.noConfusion
termination_by structural x => x

/-- Decides whether two lists of slots are equal. -/
def Node.decEqSlots : (xs ys : List Slot) → Decidable (xs = ys)
  | [], [] => .isTrue rfl
  | [], _ :: _ => .isFalse (List.cons_ne_nil _ _).symm
  | _ :: _, [] => .isFalse (List.cons_ne_nil _ _)
  | x :: xs, y :: ys =>
    match Slot.decEq x y, Node.decEqSlots xs ys with
    | .isTrue h, .isTrue hs => .isTrue (h ▸ hs ▸ rfl)
    | .isFalse h, _ => .isFalse fun e => h (List.cons.inj e).1
    | _, .isFalse hs => .isFalse fun e => hs (List.cons.inj e).2
termination_by structural x => x

end

instance : DecidableEq Node := Node.decEq

instance : DecidableEq Slot := Slot.decEq

/-! ## Kinds and text -/

/-- What a node is called: `constant`, `list`, or the kind of a composite. -/
def Node.kindName : Node → String
  | .constant _ => "constant"
  | .list _ => "list"
  | .composite kind _ => kind

mutual

/-- The text that a tree stands for. -/
def Node.render : Node → String
  | .constant text => text
  | .list items => Node.renderItems items
  | .composite _ slots => Node.renderSlots slots

/-- The text of nodes in their order. -/
def Node.renderItems : List Node → String
  | [] => ""
  | node :: rest => node.render ++ Node.renderItems rest

/-- The text of slots in their order. -/
def Node.renderSlots : List Slot → String
  | [] => ""
  | .text text :: rest => text ++ Node.renderSlots rest
  | .field _ value :: rest => value.render ++ Node.renderSlots rest

end

/-! ## Children and paths -/

/-- The fields among slots, by name. -/
def Slot.fields (slots : List Slot) : List (String × Node) :=
  slots.filterMap fun
    | .text _ => none
    | .field key value => some (key, value)

/-- The first field called `name`. -/
def Slot.fieldValue (slots : List Slot) (name : String) : Option Node :=
  (Slot.fields slots).lookup name

/-- The child of a node under a key. -/
def Node.child : Node → Key → Option Node
  | .list items, .index i => items[i]?
  | .composite _ slots, .name name => Slot.fieldValue slots name
  | _, _ => none

/-- Where a path leaves a tree: the node at `parent` has no child under `key`. The suggestion is a
    field of that node with a similar name. -/
structure MissingKey where
  parent : Path
  key : Key
  suggestion : Option String
  deriving DecidableEq, Repr

/-- The text under which a missing key is reported. -/
def MissingKey.message (e : MissingKey) : String :=
  let place := if e.parent.isRoot then "the root" else "`" ++ e.parent.text ++ "`"
  let hint := match e.suggestion with
    | some name => " (did you mean `" ++ name ++ "`?)"
    | none => ""
  "no child `" ++ e.key.text ++ "` under " ++ place ++ hint

/-- The closest of the names that are near to `wanted`; of equally close ones the last. -/
def closestName (wanted : String) (names : List String) : Option String :=
  let near := (names.map fun name => (name, Text.Closeness.ofWords name wanted)).filter
    fun candidate => candidate.2.isNear
  let best := near.foldl (fun best candidate =>
    match best with
    | none => some candidate
    | some b => if candidate.2.atLeast b.2 then some candidate else some b) none
  best.map (·.1)

/-- A field that may have been meant by a key the node does not have. -/
def Node.suggest : Node → Key → Option String
  | .composite _ slots, .name wanted => closestName wanted ((Slot.fields slots).map (·.1))
  | _, _ => none

/-- Follows `path` from a node that was itself reached by `parent`. -/
def Node.descendFrom (parent : Path) (node : Node) : Path → Except MissingKey Node
  | [] => .ok node
  | key :: rest =>
    match node.child key with
    | some child => child.descendFrom (parent.push key) rest
    | none => .error ⟨parent, key, node.suggest key⟩

/-- The node at a path. -/
def Node.descend (node : Node) (path : Path) : Except MissingKey Node := node.descendFrom [] path

mutual

/-- A node and all nodes below it that have a path, parents first, with their paths. -/
def Node.descendantsFrom (path : Path) : Node → List (Path × Node)
  | .constant text => [(path, .constant text)]
  | .list items => (path, .list items) :: Node.descendantsItems path 0 items
  | .composite kind slots => (path, .composite kind slots) :: Node.descendantsSlots path slots

/-- The descendants of the elements of a list, of which the first has index `i`. -/
def Node.descendantsItems (path : Path) (i : Nat) : List Node → List (Path × Node)
  | [] => []
  | node :: rest =>
    Node.descendantsFrom (path.push (.index i)) node ++ Node.descendantsItems path (i + 1) rest

/-- The descendants of the fields among slots. -/
def Node.descendantsSlots (path : Path) : List Slot → List (Path × Node)
  | [] => []
  | .text _ :: rest => Node.descendantsSlots path rest
  | .field key value :: rest =>
    Node.descendantsFrom (path.push (.name key)) value ++ Node.descendantsSlots path rest

end

/-- Every node of a tree that has a path, parents first, with its path. -/
def Node.descendants (node : Node) : List (Path × Node) := node.descendantsFrom []

end LosslessTree
