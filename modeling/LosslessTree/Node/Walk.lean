import LosslessTree.Node.Basic

/-!
# `Node.Walk` — depth-first walks with a visitor

A walk goes through a tree in the order of its text. At every item, which is a node or a text of a
composite (walked as a constant without a key), the visitor is called when the walk enters it, once
more for the text of a constant, and when the walk leaves it. Between entering and leaving come the
parts of the item.

Every call answers whether to go on. After a `halt` the walk enters nothing more, but it still leaves
every item that it has entered, innermost first; what those calls answer makes no difference.

## Contents
- **`Flow`**, the answer of a call.
- **`Visitor`**, three hooks on a state.
- **`Visitor.around`**, the bracket of entering and leaving, and **`Node.walk`**.
-/

namespace LosslessTree

/-- Whether a walk goes on. -/
inductive Flow where
  | proceed
  | halt
  deriving DecidableEq, Repr

namespace Flow

/-- Halts if either answer does. -/
def or : Flow → Flow → Flow
  | .proceed, .proceed => .proceed
  | _, _ => .halt

/-- Does `next` unless the answer was to halt. -/
def andThen {σ : Type} (result : σ × Flow) (next : σ → σ × Flow) : σ × Flow :=
  match result.2 with
  | .proceed => next result.1
  | .halt => result

end Flow

/-- Calls made by a walk. The key is the one under which the item's parent holds it; the root and the
    texts of a composite have none. -/
structure Visitor (σ : Type) where
  enter : Node → Option Key → σ → σ × Flow := fun _ _ s => (s, .proceed)
  leaf : String → Option Key → σ → σ × Flow := fun _ _ s => (s, .proceed)
  leave : Node → Option Key → σ → σ × Flow := fun _ _ s => (s, .proceed)

variable {σ : Type}

/-- Enters an item, walks its inside unless entering halts, and leaves it. -/
def Visitor.around (v : Visitor σ) (item : Node) (key : Option Key) (inside : σ → σ × Flow)
    (s : σ) : σ × Flow :=
  let (s, flow) := Flow.andThen (v.enter item key s) inside
  let (s, last) := v.leave item key s
  (s, last.or flow)

mutual

/-- Walks an item that its parent holds under `key`. -/
def Node.walkAt (v : Visitor σ) (key : Option Key) : Node → σ → σ × Flow
  | .constant text => v.around (.constant text) key (v.leaf text key)
  | .list items => v.around (.list items) key (Node.walkItems v 0 items)
  | .composite kind slots => v.around (.composite kind slots) key (Node.walkSlots v slots)

/-- Walks the elements of a list, of which the first has index `i`. -/
def Node.walkItems (v : Visitor σ) (i : Nat) : List Node → σ → σ × Flow
  | [], s => (s, .proceed)
  | node :: rest, s =>
    Flow.andThen (Node.walkAt v (some (.index i)) node s) (Node.walkItems v (i + 1) rest)

/-- Walks the slots of a composite. -/
def Node.walkSlots (v : Visitor σ) : List Slot → σ → σ × Flow
  | [], s => (s, .proceed)
  | .text text :: rest, s =>
    Flow.andThen (v.around (.constant text) none (v.leaf text none) s) (Node.walkSlots v rest)
  | .field key value :: rest, s =>
    Flow.andThen (Node.walkAt v (some (.name key)) value s) (Node.walkSlots v rest)

end

/-- Walks a tree from its root. -/
def Node.walk (v : Visitor σ) (tree : Node) (s : σ) : σ × Flow := Node.walkAt v none tree s

end LosslessTree
