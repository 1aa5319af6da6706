import LosslessTree.Node.Walk

/-!
# `Node.Trace` — the calls of a walk

An event is one call that a walk makes. `Node.events` lists the calls of a walk that nobody halts, by
recursion on the tree and without a visitor. `recorder` is a visitor that writes down the calls it
gets, and that halts, if asked to, at the call of a given hook with a given number.
-/

namespace LosslessTree

/-- The three hooks of a visitor. -/
inductive Hook where
  | enter
  | leaf
  | leave
  deriving DecidableEq, Repr

/-- One call of a walk. -/
inductive Event where
  | enter (item : Node) (key : Option Key)
  | leaf (text : String) (key : Option Key)
  | leave (item : Node) (key : Option Key)
  deriving DecidableEq

/-- The hook that an event calls. -/
def Event.hook : Event → Hook
  | .enter _ _ => .enter
  | .leaf _ _ => .leaf
  | .leave _ _ => .leave

mutual

/-- The calls of a full walk through an item held under `key`. -/
def Node.eventsAt (key : Option Key) : Node → List Event
  | .constant text => [.enter (.constant text) key, .leaf text key, .leave (.constant text) key]
  | .list items =>
    .enter (.list items) key :: Node.eventsItems 0 items ++ [.leave (.list items) key]
  | .composite kind slots =>
    .enter (.composite kind slots) key :: Node.eventsSlots slots ++
      [.leave (.composite kind slots) key]

/-- The calls of a full walk through the elements of a list, of which the first has index `i`. -/
def Node.eventsItems (i : Nat) : List Node → List Event
  | [] => []
  | node :: rest => Node.eventsAt (some (.index i)) node ++ Node.eventsItems (i + 1) rest

/-- The calls of a full walk through the slots of a composite. -/
def Node.eventsSlots : List Slot → List Event
  | [] => []
  | .text text :: rest =>
    [.enter (.constant text) none, .leaf text none, .leave (.constant text) none] ++
      Node.eventsSlots rest
  | .field key value :: rest => Node.eventsAt (some (.name key)) value ++ Node.eventsSlots rest

end

/-- The calls of a full walk through a tree. -/
def Node.events (tree : Node) : List Event := tree.eventsAt none

/-- The call at which a recording halts: call number `count`, from 0, of `hook`. -/
structure HaltAt where
  hook : Hook
  count : Nat
  deriving DecidableEq, Repr

/-- The answer to a call of `hook` after `earlier` calls of the same hook. -/
def HaltAt.answer (halt : Option HaltAt) (hook : Hook) (earlier : Nat) : Flow :=
  match halt with
  | some stop => if stop.hook = hook ∧ stop.count = earlier then .halt else .proceed
  | none => .proceed

/-- Writes down an event and answers it. -/
def Event.record (halt : Option HaltAt) (e : Event) (earlier : List Event) : List Event × Flow :=
  (earlier ++ [e], HaltAt.answer halt e.hook (earlier.countP (·.hook = e.hook)))

/-- A visitor that writes down its calls. -/
def recorder (halt : Option HaltAt) : Visitor (List Event) where
  enter item key := Event.record halt (.enter item key)
  leaf text key := Event.record halt (.leaf text key)
  leave item key := Event.record halt (.leave item key)

end LosslessTree
